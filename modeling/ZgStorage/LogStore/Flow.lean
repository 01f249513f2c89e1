import Mathlib
import ZgStorage.AppendMerkle.Hash

/-!
# Flow positions, transactions and shards

The flow is one sequence of 256-byte entries. Its runs of `PORA_CHUNK_SIZE`
entries are the segments (PoRA chunks), and a node of shard `shard_id` out
of `num_shard` stores the segments whose index is `shard_id` modulo
`num_shard`. A transaction occupies the entries from its
`start_entry_index` on, one subtree of `merkle_nodes` after another. What
the log store computes over these positions:

`batchIter` and `batchIterSharded` cut a range of entries into batches, one
a segment, and keep those that the shard stores.
-/

namespace ZgStorage

/-! ### Release arithmetic

The node is built with `cargo build --release`, whose integer arithmetic
does not check for overflow: `-`, `+` and `*` of a `w`-bit unsigned integer
wrap modulo `2 ^ w`, and a shift takes its amount modulo `w`. The model
computes with `Nat`, and wraps where a value the code reaches can. -/

/-- The `-` of a `w`-bit unsigned integer, on values below `2 ^ w`. -/
def wrappingSub (w a b : Nat) : Nat := if b ≤ a then a - b else a + 2 ^ w - b

/-- The `+` of a `w`-bit unsigned integer. -/
def wrappingAdd (w a b : Nat) : Nat := (a + b) % 2 ^ w

@[simp] theorem wrappingSub_of_le {w a b : Nat} (h : b ≤ a) : wrappingSub w a b = a - b := if_pos h

theorem wrappingAdd_of_lt {w a b : Nat} (h : a + b < 2 ^ w) : wrappingAdd w a b = a + b := Nat.mod_eq_of_lt h

/-- `ENTRY_SIZE`: the bytes of an entry. -/
def entrySize : Nat := 256

/-- `PORA_CHUNK_SIZE`: the entries of a segment. -/
def poraChunkSize : Nat := 1024

/-- `PAD_MAX_SIZE`: at most `2²⁰` entries of padding at a time. -/
def padMaxSize : Nat := 2 ^ 20

/-- `Transaction`: the fields the log store reads. -/
structure Transaction where
  seq : Nat
  startEntryIndex : Nat
  merkleNodes : List (Nat × H256)
  size : Nat
  dataMerkleRoot : H256
  deriving DecidableEq

namespace Transaction

/-- `Transaction::num_entries_of_node`: `1 << (depth - 1)`. -/
def numEntriesOfNode (depth : Nat) : Nat := 2 ^ (depth - 1)

/-- `Transaction::num_entries_of_list`. -/
def numEntriesOfList (merkleNodes : List (Nat × H256)) : Nat :=
  merkleNodes.foldl (fun size node => size + numEntriesOfNode node.1) 0

/-- `Transaction::num_entries`. -/
def numEntries (tx : Transaction) : Nat := numEntriesOfList tx.merkleNodes

theorem foldl_numEntries (nodes : List (Nat × H256)) : ∀ acc : Nat,
    nodes.foldl (fun size node => size + numEntriesOfNode node.1) acc =
      acc + numEntriesOfList nodes := by
  induction nodes with
  | nil => simp [numEntriesOfList]
  | cons node nodes ih =>
    intro acc
    simp only [numEntriesOfList, List.foldl_cons]
    rw [ih, ih (0 + _)]
    omega

theorem numEntriesOfList_cons (depth : Nat) (root : H256) (nodes : List (Nat × H256)) :
    numEntriesOfList ((depth, root) :: nodes) = numEntriesOfNode depth + numEntriesOfList nodes := by
  rw [numEntriesOfList, List.foldl_cons, foldl_numEntries, Nat.zero_add]

end Transaction

/-- `bytes_to_entries`: the entries that hold `size_bytes` bytes. -/
def bytesToEntries (sizeBytes : Nat) : Nat :=
  if sizeBytes % entrySize = 0 then sizeBytes / entrySize else sizeBytes / entrySize + 1

/-- `sector_to_segment`. -/
def sectorToSegment (sectorIndex : Nat) : Nat := sectorIndex / poraChunkSize

/-- `LogManager::padding`: the sizes, in entries, of the pieces of `len`
entries of padding. The remainder comes first, so that the pieces after it
stay aligned. -/
def padding (len : Nat) : List Nat :=
  let remainder := len % padMaxSize
  let n := len / padMaxSize
  if remainder = 0 then List.replicate n padMaxSize
  else remainder :: List.replicate n padMaxSize

/-- `ShardConfig`: this node stores the segments of index `shard_id`
modulo `num_shard`. -/
structure ShardConfig where
  numShard : Nat
  shardId : Nat
  deriving DecidableEq

/-- `ShardConfig::in_range`. -/
def ShardConfig.inRange (c : ShardConfig) (segmentIndex : Nat) : Bool :=
  segmentIndex % c.numShard == c.shardId

/-- `batch_iter`: the range `[start, end)` cut at the multiples of
`batch_size`. -/
def batchIter (start endIndex batchSize : Nat) : List (Nat × Nat) :=
  let first := start / batchSize * batchSize
  (List.range ((endIndex - first + batchSize - 1) / batchSize)).map fun k =>
    (max start (first + k * batchSize), min endIndex (first + k * batchSize + batchSize))

/-- `batch_iter_sharded`: the batches whose segment the shard stores. -/
def batchIterSharded (start endIndex batchSize : Nat) (shardConfig : ShardConfig) :
    List (Nat × Nat) :=
  (batchIter start endIndex batchSize).filter fun b =>
    b.1 / batchSize % shardConfig.numShard == shardConfig.shardId

section Batches

variable {start endIndex : Nat} {b : Nat × Nat}

/-- A batch of a nonempty range lies in the range and in one segment, and
is nonempty. -/
theorem bounds_of_mem_batchIter (hb : b ∈ batchIter start endIndex poraChunkSize)
    (hlt : start < endIndex) :
    start ≤ b.1 ∧ b.1 < b.2 ∧ b.2 ≤ endIndex ∧
      b.2 ≤ b.1 / poraChunkSize * poraChunkSize + poraChunkSize := by
  simp only [batchIter, List.mem_map, List.mem_range, poraChunkSize] at hb ⊢
  obtain ⟨k, hk, rfl⟩ := hb
  omega

/-- A batch of `batch_iter` is cut into itself alone. -/
theorem batchIter_of_mem (hb : b ∈ batchIter start endIndex poraChunkSize)
    (hlt : start < endIndex) : batchIter b.1 b.2 poraChunkSize = [b] := by
  obtain ⟨-, h12, -, hseg⟩ := bounds_of_mem_batchIter hb hlt
  have hcount : (b.2 - b.1 / poraChunkSize * poraChunkSize + poraChunkSize - 1) / poraChunkSize = 1 := by
    simp only [poraChunkSize] at *
    omega
  simp only [batchIter, hcount, List.range_one, List.map_cons, List.map_nil, List.cons.injEq,
    and_true]
  simp only [poraChunkSize] at *
  ext <;> simp <;> omega

/-- A whole segment is one batch. -/
theorem batchIter_segment (c : Nat) :
    batchIter (c * poraChunkSize) (c * poraChunkSize + poraChunkSize) poraChunkSize =
      [(c * poraChunkSize, c * poraChunkSize + poraChunkSize)] := by
  have hcount : (poraChunkSize + poraChunkSize - 1) / poraChunkSize = 1 := by decide
  simp [batchIter, hcount, Nat.mul_div_cancel c (show 0 < poraChunkSize by decide)]

theorem mem_batchIterSharded {c : ShardConfig} :
    b ∈ batchIterSharded start endIndex poraChunkSize c ↔
      b ∈ batchIter start endIndex poraChunkSize ∧ c.inRange (b.1 / poraChunkSize) = true := by
  simp [batchIterSharded, ShardConfig.inRange]

end Batches

end ZgStorage
