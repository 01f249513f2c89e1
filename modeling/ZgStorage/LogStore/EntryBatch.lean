import ZgStorage.LogStore.Seal

/-!
# Entry batches

`load_chunk/mod.rs`: an `EntryBatch` is the data of one load and the seal
information of its 64 seals. A sealed seal holds its data masked
(`zgs_seal`), so a read unseals every sealed seal it covers, the first one
from the word before the read when the read starts inside it. Sealing writes
an answer's 4 KiB over the seal; truncating a batch unseals the seals the
cut reaches from the start of the reverted seal's epoch, reports them to be
sealed again and forgets their seal bits.

A complete batch cut at sector `ts` holds its first `ts` sectors and nothing
else (`HoldsPrefix`), through the whole loop of `truncate_seal`
(`foldlM_truncateSealStep`); a seal that the cut falls inside is then
reported, but only its part before the cut is there
(`getNonSealedData_cut`).
-/

namespace ZgStorage

namespace IncompleteData

/-- `IncompleteData::truncate`: keep the data before sector `sector_index`,
and the subtrees that start before it. -/
def truncate (x : IncompleteData) (sectorIndex : Nat) : IncompleteData :=
  let (knownData, partialBatchTruncate) := match DataRange.find x.knownData sectorIndex with
    | .ok i =>
      let p := x.knownData[i]!
      let data := p.data.take ((sectorIndex - p.startSector) * bytesPerSector)
      (x.knownData.set i { p with data }, if data.isEmpty then i else i + 1)
    | .error i => (x.knownData, i)
  let subtreeTruncate := match DataRange.find x.subtrees sectorIndex with
    | .ok i => i
    | .error i => i
  ⟨x.subtrees.take subtreeTruncate, knownData.take partialBatchTruncate⟩

end IncompleteData

namespace EntryBatchData

def isEmpty : EntryBatchData → Bool
  | .complete _ => false
  | .incomplete x => x.knownData.isEmpty

/-- `EntryBatchData::get_mut`: the bytes of `[start_byte, start_byte +
length_byte)`, and the data with those bytes written over. -/
def getMut (self : EntryBatchData) (startByte lengthByte : Nat) :
    Except Error (Option (List UInt8 × (List UInt8 → EntryBatchData))) :=
  if startByte + lengthByte ≤ bytesPerLoad then
    match self with
    | .complete data => .ok ((sliceGet data startByte (startByte + lengthByte)).map fun s =>
        (s, fun s' => .complete (data.take startByte ++ s' ++ data.drop (startByte + lengthByte))))
    | .incomplete x => .ok (match DataRange.find x.knownData (startByte / bytesPerSector) with
      | .error _ => none
      | .ok i =>
        let p := x.knownData[i]!
        -- Rebase the start_byte and end_byte w.r.t. to hit partial batch.
        let startByte := startByte - p.startSector * bytesPerSector
        (sliceGet p.data startByte (startByte + lengthByte)).map fun s =>
          (s, fun s' =>
            let p' := { p with data := p.data.take startByte ++ s' ++ p.data.drop (startByte + lengthByte) }
            .incomplete { x with knownData := x.knownData.set i p' }))
  else .error (.panic "assertion failed: start_byte + length_byte <= BYTES_PER_LOAD")

/-- `EntryBatchData::truncate`: keep the bytes before `truncated_byte`. -/
def truncate (self : EntryBatchData) (truncatedByte : Nat) : Except Error EntryBatchData :=
  if truncatedByte % bytesPerSector ≠ 0 then
    .error (.panic "assertion failed: truncated_byte % BYTES_PER_SECTOR == 0")
  else match self with
    | .complete data => .ok (.incomplete ⟨[], [⟨0, data.take truncatedByte⟩]⟩)
    | .incomplete x => .ok (.incomplete (x.truncate (truncatedByte / bytesPerSector)))

theorem get_new {startByte lengthByte : Nat} (h : startByte + lengthByte ≤ bytesPerLoad) :
    EntryBatchData.new.get startByte lengthByte = .ok none := by
  simp [new, get, h, IncompleteData.get, DataRange.find, Runs.binarySearchByKey]

/-- A read of a complete batch within the load is that slice of its bytes. -/
theorem get_complete {w : List UInt8} (hw : w.length = bytesPerLoad) {a L : Nat} (h : a + L ≤ bytesPerLoad) :
    (EntryBatchData.complete w).get a L = .ok (some ((w.drop a).take L)) := by
  simp [EntryBatchData.get, h, sliceGet, hw]

/-- A whole load inserted into a new batch completes it. -/
theorem insertData_new {d : List UInt8} (hd : d.length = bytesPerLoad) :
    ∃ ready, EntryBatchData.new.insertData 0 d = .ok (.complete d, ready) := by
  simp [new, insertData, hd, DataRange.find, Runs.binarySearchByKey, mergeAt, removeCompletedSubtrees,
    firstSubtreeAfter, fillsLoad, bytesToChunks, bytesPerLoad, bytesPerSector, chunkSize, sectorsPerLoad]

/-- The data of a batch that holds its first `len` bytes and nothing else,
as a cut of a complete batch leaves it. -/
def HoldsPrefix (data : EntryBatchData) (len : Nat) : Prop :=
  ∃ p : List UInt8, data = .incomplete ⟨[], [⟨0, p⟩]⟩ ∧ p.length = len

theorem holdsPrefix_truncate {d : List UInt8} (hd : d.length = bytesPerLoad) (truncatedByte : Nat)
    (hs : truncatedByte % bytesPerSector = 0) (hle : truncatedByte ≤ bytesPerLoad) :
    ∃ data, (EntryBatchData.complete d).truncate truncatedByte = .ok data ∧
      data.HoldsPrefix truncatedByte :=
  ⟨.incomplete ⟨[], [⟨0, d.take truncatedByte⟩]⟩, by simp [truncate, hs], _, rfl, by simp [hd, hle]⟩

/-- The one partial batch of a prefix holds each of its sectors. -/
theorem find_prefix {p : List UInt8} {s : Nat} (hs : s * bytesPerSector < p.length) :
    DataRange.find [(⟨0, p⟩ : PartialBatch)] s = .ok 0 := by
  have hend : s < DataRange.endSector (⟨0, p⟩ : PartialBatch) := by
    show s < 0 + bytesToChunks p.length
    unfold bytesToChunks chunkSize
    unfold bytesPerSector at hs
    split <;> omega
  rcases Nat.eq_zero_or_pos s with rfl | hpos
  · simp [DataRange.find, Runs.binarySearchByKey, DataRange.startSector, hend]
  · simp [DataRange.find, Runs.binarySearchByKey, DataRange.startSector, hpos, hend]

theorem HoldsPrefix.isEmpty {data : EntryBatchData} {len : Nat} (h : data.HoldsPrefix len) :
    data.isEmpty = false := by
  obtain ⟨p, rfl, -⟩ := h
  rfl

/-- A range inside the prefix can be written over with as many bytes, and
the data still holds the prefix. -/
theorem HoldsPrefix.getMut {data : EntryBatchData} {len : Nat} (h : data.HoldsPrefix len)
    {startByte lengthByte : Nat} (hs : startByte < len) (he : startByte + lengthByte ≤ len)
    (hload : len ≤ bytesPerLoad) :
    ∃ s write, data.getMut startByte lengthByte = .ok (some (s, write)) ∧ s.length = lengthByte ∧
      ∀ s', s'.length = lengthByte → (write s').HoldsPrefix len := by
  obtain ⟨p, rfl, hp⟩ := h
  have hfind := find_prefix (p := p) (s := startByte / bytesPerSector)
    (by unfold bytesPerSector; omega)
  refine ⟨(p.drop startByte).take lengthByte,
    fun s' => .incomplete ⟨[], [⟨0, p.take startByte ++ s' ++ p.drop (startByte + lengthByte)⟩]⟩, ?_, ?_, ?_⟩
  · have hle : startByte + lengthByte ≤ p.length := by omega
    simp [EntryBatchData.getMut, hfind, sliceGet, hle, Nat.le_trans he hload]
  · simp
    omega
  · intro s' hs'
    exact ⟨_, rfl, by simp; omega⟩

/-- A read that runs past the prefix finds nothing. -/
theorem HoldsPrefix.get_eq_none {data : EntryBatchData} {len : Nat} (h : data.HoldsPrefix len)
    {startByte lengthByte : Nat} (hs : startByte < len) (hlt : len < startByte + lengthByte)
    (hload : startByte + lengthByte ≤ bytesPerLoad) :
    data.get startByte lengthByte = .ok none := by
  obtain ⟨p, rfl, hp⟩ := h
  have hfind := find_prefix (p := p) (s := startByte / bytesPerSector)
    (by unfold bytesPerSector; omega)
  simp [EntryBatchData.get, hload, IncompleteData.get, hfind, sliceGet]
  omega

end EntryBatchData

/-- `SealAnswer`: the sealed data of a seal, and the context it was sealed
with. -/
structure SealAnswer where
  sealIndex : Nat
  version : Nat
  sealedData : Vector UInt8 (4 * 1024)
  minerId : H256
  sealContext : H256
  contextEndSeal : Nat

/-- `SealTask`: the data of a seal to be sealed. -/
structure SealTask where
  sealIndex : Nat
  version : Nat
  nonSealedData : List UInt8

/-- `EntryBatch`. -/
structure EntryBatch where
  «seal» : SealInfo
  data : EntryBatchData

namespace EntryBatch

/-- `EntryBatch::new`. -/
def new (loadIndexGlobal : Nat) : EntryBatch := ⟨SealInfo.new loadIndexGlobal, EntryBatchData.new⟩

def isEmpty (b : EntryBatch) : Bool := b.data.isEmpty

def isComplete (b : EntryBatch) : Bool :=
  match b.data with
  | .complete _ => true
  | .incomplete _ => false

def isSealSealed (b : EntryBatch) (sealIndex : Nat) : Bool := b.seal.isSealed sealIndex

/-- `get_sealed_data`. -/
def getSealedData (b : EntryBatch) (sealIndex : Nat) : Except Error (Option (List UInt8)) :=
  if b.seal.isSealed sealIndex then b.data.get (sealIndex * bytesPerSeal) bytesPerSeal else .ok none

/-- `get_non_sealed_data`. -/
def getNonSealedData (b : EntryBatch) (sealIndex : Nat) : Except Error (Option (List UInt8)) :=
  if !b.seal.isSealed sealIndex then b.data.get (sealIndex * bytesPerSeal) bytesPerSeal else .ok none

variable [Keccak]

/-- The loop of `get_unsealed_data` over the seals that the read covers
whole, from seal `seal_index` on (`chunks_mut`). -/
def unsealChunks (s : SealInfo) (sealIndex : Nat) (data : List UInt8) : Except Error (List UInt8) :=
  if _h : data = [] then .ok [] else do
    let chunk ← s.unseal (data.take bytesPerSeal) sealIndex
    let rest ← unsealChunks s (sealIndex + 1) (data.drop bytesPerSeal)
    pure (chunk ++ rest)
termination_by data.length
decreasing_by
  rw [List.length_drop]
  have := List.length_pos_of_ne_nil _h
  simp only [bytesPerSeal]
  omega

/-- `get_unsealed_data`: the data of `length_sector` sectors from
`start_sector`, unsealed. -/
def getUnsealedData (b : EntryBatch) (startSector lengthSector : Nat) :
    Except Error (Option (List UInt8)) := do
  -- If the start position is not aligned and is sealed, we need to load one more word (32 bytes) for unsealing
  let advancedByOne :=
    if startSector % sectorsPerSeal = 0 then false else b.seal.isSealed (startSector / sectorsPerSeal)
  let startByte := startSector * bytesPerSector
  let lengthByte := lengthSector * bytesPerSector
  -- Load data slice with the word for unsealing
  let loaded ← if advancedByOne then b.data.get (startByte - 32) (lengthByte + 32)
    else b.data.get startByte lengthByte
  let some loaded := loaded | return none
  let (loadedData, unsealMaskSeed) :=
    if advancedByOne then (loaded.drop 32, some (loaded.take 32)) else (loaded, none)
  let incompleteSealChunkLength := (bytesPerLoad - startByte) % bytesPerSeal
  -- Unseal the first incomplete sealing chunk (if exists)
  let loadedData ← match unsealMaskSeed with
    | some unsealMaskSeed =>
      if loadedData.length < incompleteSealChunkLength then
        -- The loaded data does not cross sealings
        ZgsSeal.unsealWithMaskSeed loadedData unsealMaskSeed
      else do
        let first ← ZgsSeal.unsealWithMaskSeed (loadedData.take incompleteSealChunkLength) unsealMaskSeed
        pure (first ++ loadedData.drop incompleteSealChunkLength)
    | none => pure loadedData
  if loadedData.length > incompleteSealChunkLength then
    let startSeal := (startByte + incompleteSealChunkLength) / bytesPerSeal
    let completeChunks ← unsealChunks b.seal startSeal (loadedData.drop incompleteSealChunkLength)
    return some (loadedData.take incompleteSealChunkLength ++ completeChunks)
  return some loadedData

/-- The loop of `to_unsealed_data` over the seals of a complete batch: each
seal's data, unsealed if it is sealed. -/
def unsealSeals (b : EntryBatch) : List Nat → Except Error (Option (List UInt8))
  | [] => .ok (some [])
  | bit :: bits => do
    let startByte := bit * bytesPerSeal
    let some dataSlice ← b.data.get startByte bytesPerSeal | return none
    let dataSlice ← if b.seal.isSealed bit then b.seal.unseal dataSlice bit else pure dataSlice
    let some rest ← unsealSeals b bits | return none
    return some (dataSlice ++ rest)

/-- The inner loop of `to_unsealed_data` over the seals a partial batch
spans: a seal the batch holds whole and that is sealed is unsealed, and of
any other seal the part the batch holds is copied. -/
def unsealPartialSeals (b : EntryBatch) (partialBatch : PartialBatch) :
    List Nat → Except Error (Option (List UInt8))
  | [] => .ok (some [])
  | sealIndex :: rest => do
    let partialStartByte := partialBatch.startSector * bytesPerSector
    let partialEndByte := partialStartByte + partialBatch.data.length
    let sealStartByte := sealIndex * bytesPerSeal
    let sealEndByte := sealStartByte + bytesPerSeal
    let isFullSeal := decide (partialStartByte ≤ sealStartByte ∧ partialEndByte ≥ sealEndByte)
    if isFullSeal && b.seal.isSealed sealIndex then
      -- Full seal and sealed -> unseal and append to partial batch data
      let some sealData ← b.data.get sealStartByte bytesPerSeal | return none
      let unsealed ← b.seal.unseal sealData sealIndex
      let some tail ← unsealPartialSeals b partialBatch rest | return none
      return some (unsealed ++ tail)
    else
      -- Either partial seal (definitely not sealed) or full but unsealed -> copy overlap and append
      let overlapStart := max partialStartByte sealStartByte
      let overlapEnd := min partialEndByte sealEndByte
      let offsetInPartial := overlapStart - partialStartByte
      -- the seals the loop visits meet the partial batch, so the overlap is
      -- not empty and the length does not wrap
      let overlapLen := overlapEnd - overlapStart
      let some overlapData := sliceGet partialBatch.data offsetInPartial (offsetInPartial + overlapLen)
        | throw (.panic "range end index out of range for slice")
      let some tail ← unsealPartialSeals b partialBatch rest | return none
      return some (overlapData ++ tail)

/-- The outer loop of `to_unsealed_data` over the partial batches of an
incomplete batch: one chunk for each that holds data. -/
def unsealPartialBatches (b : EntryBatch) : List PartialBatch → Except Error (Option (List (List UInt8)))
  | [] => .ok (some [])
  | partialBatch :: rest => do
    if partialBatch.data.length = 0 then unsealPartialBatches b rest else
    let partialEndByte := partialBatch.startSector * bytesPerSector + partialBatch.data.length
    -- Calculate which seal this partial batch starts and ends in
    let startSealIndex := partialBatch.startSector / sectorsPerSeal
    let endSealIndex := (partialEndByte - 1) / bytesPerSeal
    let some partialBatchData ← unsealPartialSeals b partialBatch
        (List.range' startSealIndex (endSealIndex + 1 - startSealIndex)) | return none
    let some chunks ← unsealPartialBatches b rest | return none
    return some (partialBatchData :: chunks)

/-- `to_unsealed_data`: the chunks of `UnsealedDataList`, the whole load as
one chunk when the batch is complete. -/
def toUnsealedData (b : EntryBatch) : Except Error (Option (List (List UInt8))) :=
  match b.data with
  | .complete _ => do
    let some completeData ← unsealSeals b (List.range sealsPerLoad) | return none
    return some [completeData]
  | .incomplete incompleteData => unsealPartialBatches b incompleteData.knownData

/-- `EntryBatch::insert_data`: data the batch already shows is not inserted
again. -/
def insertData (b : EntryBatch) (offset : Nat) (data : List UInt8) :
    Except Error (EntryBatch × List Nat) := do
  if data.isEmpty then return (b, [])
  if (← b.getUnsealedData offset (data.length / bytesPerSector)) = some data then return (b, [])
  let (d, readyForSealIdxs) ← b.data.insertData (offset * bytesPerSector) data
  return ({ b with data := d }, readyForSealIdxs)

/-- The loop of `truncate_seal` over one seal: a sealed seal that the cut
reaches is unsealed up to the cut and reported. -/
def truncateSealStep (truncatedSector : Nat) (state : EntryBatch × List Nat) (unsealIndex : Nat) :
    Except Error (EntryBatch × List Nat) := do
  let (b, toResealSet) := state
  if !b.seal.isSealed unsealIndex then return (b, toResealSet)
  let truncatedByte := truncatedSector * bytesPerSector
  let firstUnsealByte := unsealIndex * bytesPerSeal
  let length := min (truncatedByte - firstUnsealByte) bytesPerSeal
  let some (toUnseal, write) ← b.data.getMut firstUnsealByte length
    | throw (.panic "Sealed chunk should be complete")
  let unsealed ← b.seal.unseal toUnseal unsealIndex
  return ({ b with data := write unsealed }, toResealSet ++ [unsealIndex])

/-- `truncate_seal`: the seals to seal again after a cut at
`truncated_sector`. -/
def truncateSeal (b : EntryBatch) (truncatedSector : Nat) : Except Error (EntryBatch × List Nat) := do
  let revertedSealIndex := truncatedSector / sectorsPerSeal
  let firstUnsealIndex := b.seal.truncatedSealIndex revertedSealIndex
  let lastUnsealIndex := (truncatedSector - 1) / sectorsPerSeal
  let (b, toResealSet) ← (List.range' firstUnsealIndex (lastUnsealIndex + 1 - firstUnsealIndex)).foldlM
    (truncateSealStep truncatedSector) (b, [])
  -- truncate the bitmap
  return ({ b with «seal» := b.seal.truncate revertedSealIndex }, toResealSet)

/-- `EntryBatch::truncate`. -/
def truncate (b : EntryBatch) (truncatedSector : Nat) : Except Error (EntryBatch × List Nat) := do
  if ¬(truncatedSector > 0 ∧ truncatedSector < sectorsPerLoad) then
    throw (.panic "assertion failed: truncated_sector > 0 && truncated_sector < SECTORS_PER_LOAD")
  let data ← b.data.truncate (truncatedSector * bytesPerSector)
  { b with data }.truncateSeal truncatedSector

/-- `EntryBatch::submit_seal_result`: write the sealed data over the seal
and mark it sealed. -/
def submitSealResult (b : EntryBatch) (answer : SealAnswer) : Except Error EntryBatch := do
  let localSealIndex := answer.sealIndex % sealsPerLoad
  if b.seal.isSealed localSealIndex then throw (.panic "Duplicated sealing")
  if answer.sealIndex / sealsPerLoad ≠ b.seal.loadIndex then
    throw (.panic "assertion `left == right` failed")
  let s ← b.seal.setSealContext answer.sealContext answer.contextEndSeal answer.minerId
  let some (_, write) ← b.data.getMut (localSealIndex * bytesPerSeal) bytesPerSeal
    | throw (.panic "Sealing segment should exist")
  return ⟨s.markSealed localSealIndex, write answer.sealedData.toList⟩

theorem getUnsealedData_new (c startSector lengthSector : Nat)
    (h : startSector + lengthSector ≤ sectorsPerLoad) :
    (new c).getUnsealedData startSector lengthSector = .ok none := by
  have hb : startSector * bytesPerSector + lengthSector * bytesPerSector ≤ bytesPerLoad := by
    simp only [sectorsPerLoad, bytesPerSector, bytesPerLoad] at h ⊢
    omega
  simp [getUnsealedData, new, SealInfo.new, SealInfo.isSealed, EntryBatchData.get_new hb]

/-- A whole load inserted into a new batch completes it, with no seal
sealed. -/
theorem insertData_new {c : Nat} {d : List UInt8} (hd : d.length = bytesPerLoad) :
    ∃ ready, (new c).insertData 0 d = .ok (⟨SealInfo.new c, .complete d⟩, ready) := by
  obtain ⟨ready, hins⟩ := EntryBatchData.insertData_new hd
  have hne : d.isEmpty = false := by
    rw [List.isEmpty_eq_false_iff, ← List.length_pos_iff, hd]
    decide
  have hread := getUnsealedData_new c 0 (d.length / bytesPerSector) (by rw [hd]; decide)
  refine ⟨ready, ?_⟩
  simp only [insertData, hne, hread, Bool.false_eq_true, if_false, Except.ok_bind, reduceCtorEq]
  simp [new, hins]

omit [Keccak] in
/-- The first answer a complete batch takes: its context is the first one,
and its sealed data is written over the seal. -/
theorem submitSealResult_fresh {c : Nat} {d : List UInt8} (hlen : d.length = bytesPerLoad) {a : SealAnswer}
    {i : Nat} (hi : a.sealIndex = c * sealsPerLoad + i) (hi64 : i < sealsPerLoad)
    (hend : c * sealsPerLoad < a.contextEndSeal) :
    (⟨SealInfo.new c, .complete d⟩ : EntryBatch).submitSealResult a =
      .ok ⟨(⟨fun _ => false, c, a.minerId,
          [⟨a.sealContext, min (a.contextEndSeal - c * sealsPerLoad) sealsPerLoad⟩]⟩ : SealInfo).markSealed i,
        .complete (d.take (i * bytesPerSeal) ++ a.sealedData.toList ++
          d.drop (i * bytesPerSeal + bytesPerSeal))⟩ := by
  have hmod : a.sealIndex % sealsPerLoad = i := by rw [hi]; unfold sealsPerLoad at *; omega
  have hdiv : a.sealIndex / sealsPerLoad = c := by rw [hi]; unfold sealsPerLoad at *; omega
  have hsub : wrappingSub 64 a.contextEndSeal (c * sealsPerLoad) = a.contextEndSeal - c * sealsPerLoad :=
    wrappingSub_of_le (Nat.le_of_lt hend)
  have hseal : i * bytesPerSeal + bytesPerSeal ≤ bytesPerLoad := by
    unfold sealsPerLoad bytesPerSeal bytesPerLoad at *; omega
  simp [submitSealResult, SealInfo.isSealed, SealInfo.new, hmod, hdiv, SealInfo.setSealContext,
    hsub, SealInfo.contextIndex, Runs.binarySearchByKey,
    EntryBatchData.getMut, hseal, sliceGet, hlen]

omit [Keccak] in
/-- On a complete batch, an answer for one of its seals that is not sealed
yet is written over the seal, with the seal info as `set_seal_context`
leaves it. -/
theorem submitSealResult_complete {s s' : SealInfo} {w : List UInt8} (hw : w.length = bytesPerLoad)
    {a : SealAnswer} (hs : s.isSealed (a.sealIndex % sealsPerLoad) = false)
    (hidx : a.sealIndex / sealsPerLoad = s.loadIndex)
    (hctx : s.setSealContext a.sealContext a.contextEndSeal a.minerId = .ok s') :
    (⟨s, .complete w⟩ : EntryBatch).submitSealResult a =
      .ok ⟨s'.markSealed (a.sealIndex % sealsPerLoad),
        .complete (w.take (a.sealIndex % sealsPerLoad * bytesPerSeal) ++ a.sealedData.toList ++
          w.drop (a.sealIndex % sealsPerLoad * bytesPerSeal + bytesPerSeal))⟩ := by
  have hi : a.sealIndex % sealsPerLoad < sealsPerLoad := Nat.mod_lt _ (by decide)
  have hseal : a.sealIndex % sealsPerLoad * bytesPerSeal + bytesPerSeal ≤ bytesPerLoad := by
    unfold sealsPerLoad bytesPerSeal bytesPerLoad at *
    omega
  simp [submitSealResult, hs, hidx, hctx, EntryBatchData.getMut, hseal, sliceGet, hw]

section Truncate

variable {ts : Nat}

/-- One seal of `truncate_seal` inside the prefix: a sealed seal is unsealed
in place and reported. -/
theorem truncateSealStep_ok {b : EntryBatch} {j : Nat} (acc : List Nat)
    (hp : b.data.HoldsPrefix (ts * bytesPerSector)) (hts : ts ≤ sectorsPerLoad)
    (hj : j * bytesPerSeal < ts * bytesPerSector)
    (hctx : b.seal.isSealed j = true → (b.seal.getSealContextDigest j).isSome) :
    ∃ b', truncateSealStep ts (b, acc) j = .ok (b', acc ++ if b.seal.isSealed j then [j] else []) ∧
      b'.data.HoldsPrefix (ts * bytesPerSector) ∧ b'.seal = b.seal := by
  by_cases hs : b.seal.isSealed j
  · have hlen : j * bytesPerSeal + min (ts * bytesPerSector - j * bytesPerSeal) bytesPerSeal ≤
        ts * bytesPerSector := by omega
    obtain ⟨s, write, hget, hslen, hwrite⟩ := hp.getMut hj hlen
      (by unfold sectorsPerLoad bytesPerSector bytesPerLoad at *; omega)
    have h32 : s.length % 32 = 0 := by
      rw [hslen]
      unfold bytesPerSeal bytesPerSector
      omega
    obtain ⟨out, hout, houtlen⟩ := SealInfo.unseal_of_context hctx h32
    refine ⟨{ b with data := write out }, ?_, hwrite out (by omega), rfl⟩
    simp [truncateSealStep, hs, hget, hout]
  · refine ⟨b, ?_, hp, rfl⟩
    simp [truncateSealStep, hs]

/-- The loop of `truncate_seal` over seals inside the prefix reports the
sealed ones, in order, and keeps the prefix and the seal information. -/
theorem foldlM_truncateSealStep (hts : ts ≤ sectorsPerLoad) :
    ∀ (xs : List Nat) (b : EntryBatch) (acc : List Nat), b.data.HoldsPrefix (ts * bytesPerSector) →
      (∀ j ∈ xs, j * bytesPerSeal < ts * bytesPerSector ∧
        (b.seal.isSealed j = true → (b.seal.getSealContextDigest j).isSome)) →
      ∃ b', xs.foldlM (truncateSealStep ts) (b, acc) = .ok (b', acc ++ xs.filter b.seal.isSealed) ∧
        b'.data.HoldsPrefix (ts * bytesPerSector) ∧ b'.seal = b.seal
  | [], b, acc, hp, _ => ⟨b, by simp, hp, rfl⟩
  | j :: xs, b, acc, hp, hxs => by
    obtain ⟨hj, hctx⟩ := hxs j List.mem_cons_self
    obtain ⟨b₁, hstep, hp₁, hseal₁⟩ := truncateSealStep_ok acc hp hts hj hctx
    obtain ⟨b', hrest, hp', hseal'⟩ := foldlM_truncateSealStep hts xs b₁ _ hp₁
      (by rw [hseal₁]; exact fun j hj => hxs j (List.mem_cons_of_mem _ hj))
    refine ⟨b', ?_, hp', hseal'.trans hseal₁⟩
    rw [List.foldlM_cons, hstep, Except.ok_bind, hrest, hseal₁, List.filter_cons]
    split <;> simp_all

/-- `truncate_seal` of a batch that holds the prefix up to the cut: the
sealed seals from the start of the reverted seal's epoch up to the one
before the cut are unsealed and reported, and forgotten in the bitmap. -/
theorem truncateSeal_ok {b : EntryBatch} (h0 : 0 < ts) (hts : ts ≤ sectorsPerLoad)
    (hp : b.data.HoldsPrefix (ts * bytesPerSector))
    (hctx : ∀ j, b.seal.truncatedSealIndex (ts / sectorsPerSeal) ≤ j → j ≤ (ts - 1) / sectorsPerSeal →
      b.seal.isSealed j = true → (b.seal.getSealContextDigest j).isSome)
    (htrunc : b.seal.truncatedSealIndex (ts / sectorsPerSeal) < sealsPerLoad) :
    ∃ b', b.truncateSeal ts = .ok (b', (List.range' (b.seal.truncatedSealIndex (ts / sectorsPerSeal))
        ((ts - 1) / sectorsPerSeal + 1 - b.seal.truncatedSealIndex (ts / sectorsPerSeal))).filter
          b.seal.isSealed) ∧
      b'.data.HoldsPrefix (ts * bytesPerSector) ∧
      ∀ i, b'.seal.isSealed i =
        (b.seal.isSealed i && decide (i < b.seal.truncatedSealIndex (ts / sectorsPerSeal))) := by
  have hin : ∀ j ∈ List.range' (b.seal.truncatedSealIndex (ts / sectorsPerSeal))
      ((ts - 1) / sectorsPerSeal + 1 - b.seal.truncatedSealIndex (ts / sectorsPerSeal)),
      j * bytesPerSeal < ts * bytesPerSector ∧
        (b.seal.isSealed j = true → (b.seal.getSealContextDigest j).isSome) := by
    intro j hj
    rw [List.mem_range'_1] at hj
    refine ⟨?_, hctx j hj.1 (by omega)⟩
    have hle : j * sectorsPerSeal ≤ ts - 1 :=
      Nat.le_trans (Nat.mul_le_mul_right sectorsPerSeal (show j ≤ (ts - 1) / sectorsPerSeal by omega))
        (Nat.div_mul_le_self (ts - 1) sectorsPerSeal)
    unfold bytesPerSeal bytesPerSector
    unfold sectorsPerSeal at hle
    omega
  obtain ⟨b₁, hfold, hp₁, hseal₁⟩ := foldlM_truncateSealStep hts _ b [] hp hin
  refine ⟨{ b₁ with «seal» := { b.seal with
      bitmap := fun i => b.seal.bitmap i && decide (i < b.seal.truncatedSealIndex (ts / sectorsPerSeal)),
      sealContexts := b.seal.sealContexts.take (b.seal.contextIndex (ts / sectorsPerSeal)) } },
    ?_, hp₁, fun i => rfl⟩
  simp [truncateSeal, hfold, hseal₁, SealInfo.truncate_of_lt htrunc]

/-- `EntryBatch::truncate` of a complete batch. -/
theorem truncate_complete {b : EntryBatch} {d : List UInt8} (hd : b.data = .complete d)
    (hlen : d.length = bytesPerLoad) (h0 : 0 < ts) (hts : ts < sectorsPerLoad)
    (hctx : ∀ j, b.seal.truncatedSealIndex (ts / sectorsPerSeal) ≤ j → j ≤ (ts - 1) / sectorsPerSeal →
      b.seal.isSealed j = true → (b.seal.getSealContextDigest j).isSome)
    (htrunc : b.seal.truncatedSealIndex (ts / sectorsPerSeal) < sealsPerLoad) :
    ∃ b', b.truncate ts = .ok (b', (List.range' (b.seal.truncatedSealIndex (ts / sectorsPerSeal))
        ((ts - 1) / sectorsPerSeal + 1 - b.seal.truncatedSealIndex (ts / sectorsPerSeal))).filter
          b.seal.isSealed) ∧
      b'.data.HoldsPrefix (ts * bytesPerSector) ∧
      ∀ i, b'.seal.isSealed i =
        (b.seal.isSealed i && decide (i < b.seal.truncatedSealIndex (ts / sectorsPerSeal))) := by
  obtain ⟨data, htr, hp⟩ := EntryBatchData.holdsPrefix_truncate hlen (ts * bytesPerSector)
    (by unfold bytesPerSector; omega) (by unfold sectorsPerLoad at hts; unfold bytesPerSector bytesPerLoad; omega)
  obtain ⟨b', hseal, hp', hbits⟩ := truncateSeal_ok (b := { b with data }) h0 (Nat.le_of_lt hts) hp hctx htrunc
  exact ⟨b', by simpa [truncate, h0, hts, hd, htr] using hseal, hp', hbits⟩

omit [Keccak] in
/-- After a cut inside a seal that the cut unsealed, the seal is neither
sealed nor all there. -/
theorem getNonSealedData_cut {b : EntryBatch} (hp : b.data.HoldsPrefix (ts * bytesPerSector))
    (hcut : ts % sectorsPerSeal ≠ 0) (hts : ts < sectorsPerLoad)
    (hns : b.seal.isSealed (ts / sectorsPerSeal) = false) :
    b.getNonSealedData (ts / sectorsPerSeal) = .ok none := by
  have hlow := Nat.div_mul_le_self ts sectorsPerSeal
  have hhigh := Nat.lt_div_mul_add (a := ts) (b := sectorsPerSeal) (by decide)
  simp only [getNonSealedData, hns, Bool.not_false, if_true]
  unfold sectorsPerSeal at *
  unfold sectorsPerLoad at hts
  exact hp.get_eq_none (by unfold bytesPerSeal bytesPerSector; omega) (by unfold bytesPerSeal bytesPerSector; omega)
    (by unfold bytesPerSeal bytesPerLoad; omega)
end Truncate

end EntryBatch

end ZgStorage
