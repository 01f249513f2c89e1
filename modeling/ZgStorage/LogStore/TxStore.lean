import ZgStorage.LogStore.FlowStore
import ZgStorage.AppendMerkle.History

/-!
# The transaction store

`TransactionStore` keeps the transactions by sequence number, the next
sequence number, the index from a data root to the transactions with it,
and which transactions are finalized. The last chunk of the flow is rebuilt
from it (`rebuild_last_chunk_merkle`): the subtrees of the transactions
that lie in the chunk, replayed from the chunk's start.
-/

namespace ZgStorage

/-- `usize::trailing_zeros`, over the 64 bits of a `usize`. -/
def trailingZeros : Nat → Nat → Nat
  | 0, _ => 0
  | bits + 1, n => if n % 2 = 0 then trailingZeros bits (n / 2) + 1 else 0

/-- `log2_pow2`: the trailing zeros of a power of two. -/
def log2Pow2 (n : Nat) : Nat := trailingZeros 64 n

theorem log2Pow2_poraChunkSize : log2Pow2 poraChunkSize = 10 := by decide

/-- `u64::MAX`: reverting to it reverts every transaction. -/
def u64Max : Nat := 2 ^ 64 - 1

/-- The leaf of an entry of zeros: `Sha3Algorithm::leaf(&[0; 256])`. -/
def padLeaf [Keccak] : OptionalHash := Sha3Algorithm.optional.leaf (List.replicate entrySize 0)

/-- `data_to_merkle_leaves`: the leaf of each entry. -/
def dataToMerkleLeaves [Keccak] (data : List (List UInt8)) : List OptionalHash :=
  data.map Sha3Algorithm.optional.leaf

/-- `TransactionStore`: the transactions by sequence number (`COL_TX`),
the next sequence number, the transactions of each data root
(`COL_TX_DATA_ROOT_INDEX`) and the finalized ones (`COL_TX_COMPLETED`). -/
structure TransactionStore where
  txs : Nat → Option Transaction
  nextTxSeq : Nat
  dataRootIndex : H256 → List Nat
  completed : Nat → Bool

namespace TransactionStore

variable (ts : TransactionStore)

/-- `get_tx_by_seq_number`: nothing at or past the next sequence number. -/
def getTxBySeqNumber (seq : Nat) : Option Transaction :=
  if seq ≥ ts.nextTxSeq then none else ts.txs seq

/-- `check_tx_completed`. -/
def checkTxCompleted (seq : Nat) : Bool := ts.completed seq

/-- `finalize_tx`. -/
def finalizeTx (seq : Nat) : TransactionStore :=
  { ts with completed := Function.update ts.completed seq true }

/-- `put_tx`: record the transaction under its data root; returns the
transactions that had that root before. A transaction put again only moves
the next sequence number. -/
def putTx (tx : Transaction) : Except Error (TransactionStore × List Nat) := do
  let oldTxSeqList := ts.dataRootIndex tx.dataMerkleRoot
  if oldTxSeqList.getLast? = some tx.seq then
    -- The last tx is inserted again, so no need to process it.
    return ({ ts with nextTxSeq := tx.seq + 1 }, oldTxSeqList)
  -- The list is sorted, and we always call `put_tx` in order.
  if let some last := oldTxSeqList.getLast? then
    if tx.seq ≤ last then throw (.panic "assertion failed: old_tx_seq_list.last() < tx.seq")
  return ({ ts with
    txs := Function.update ts.txs tx.seq (some tx)
    nextTxSeq := tx.seq + 1
    dataRootIndex := Function.update ts.dataRootIndex tx.dataMerkleRoot (oldTxSeqList ++ [tx.seq]) },
    oldTxSeqList)

/-- The loop of `remove_tx_after` from `seq` over `n` sequence numbers: it
stops at the first missing transaction. -/
def removeTxLoop : TransactionStore → Nat → Nat → TransactionStore × List Transaction
  | ts, _, 0 => (ts, [])
  | ts, seq, n + 1 =>
    match ts.getTxBySeqNumber seq with
    | none => (ts, [])
    | some tx =>
      let ts' := { ts with
        txs := Function.update ts.txs seq none
        completed := Function.update ts.completed seq false
        dataRootIndex := Function.update ts.dataRootIndex tx.dataMerkleRoot
          ((ts.dataRootIndex tx.dataMerkleRoot).filter (· < seq)) }
      let (ts'', removed) := removeTxLoop ts' (seq + 1) n
      (ts'', tx :: removed)

/-- `remove_tx_after`: remove the transactions from `min_seq` on, and
return them in order. -/
def removeTxAfter (minSeq : Nat) : TransactionStore × List Transaction :=
  let (ts', removed) := removeTxLoop ts minSeq (ts.nextTxSeq - minSeq)
  ({ ts' with nextTxSeq := minSeq }, removed)

/-- The loop of `rebuild_last_chunk_merkle` from `tx_seq` down: the
subtree lists of the transactions with data in the chunk that starts at
`last_chunk_start_index`, the latest first. A transaction that starts
before the chunk contributes the subtrees after the one ending at the
chunk's start. -/
def rebuildTxList (lastChunkStartIndex : Nat) :
    Nat → List (Nat × List (Nat × H256)) → Except Error (List (Nat × List (Nat × H256)))
  | txSeq, txList => do
    let some tx := ts.getTxBySeqNumber txSeq | throw (.panic "tx not removed")
    if tx.startEntryIndex > lastChunkStartIndex then
      let txList := txList ++ [(txSeq, tx.merkleNodes)]
      if tx.startEntryIndex ≥ lastChunkStartIndex + poraChunkSize then return txList
      match txSeq with
      | 0 => return txList
      | txSeq + 1 => rebuildTxList lastChunkStartIndex txSeq txList
    else if tx.startEntryIndex = lastChunkStartIndex then
      return txList ++ [(txSeq, tx.merkleNodes)]
    else
      -- The transaction data crosses a chunk: find the subtrees within the
      -- last chunk, after the subtree that ends at the chunk boundary.
      let ends := (List.range tx.merkleNodes.length).map fun i =>
        tx.startEntryIndex + Transaction.numEntriesOfList (tx.merkleNodes.take (i + 1))
      match ends.findIdx? (· = lastChunkStartIndex) with
      | some i =>
        if i + 1 ≠ tx.merkleNodes.length then return txList ++ [(txSeq, tx.merkleNodes.drop (i + 1))]
        else if txList.isEmpty then return txList
        else throw (.panic "assertion failed: tx_list.is_empty()")
      | none => return txList

variable [Keccak]

/-- The replay of `rebuild_last_chunk_merkle`, the earliest transaction
first: pad to the first subtree's size (at most a chunk), append the
subtrees, commit the transaction's version. -/
def replayTxList (merkle : AppendMerkleTree OptionalHash) :
    List (Nat × List (Nat × H256)) → Except Error (AppendMerkleTree OptionalHash)
  | [] => return merkle
  | (txSeq, subtreeList) :: rest => do
    let some first := subtreeList.head? | throw (.panic "index out of bounds")
    let firstSubtree := 2 ^ (first.1 - 1)
    let leaves ← merkle.leaves
    let merkle ← if leaves % firstSubtree ≠ 0 then
        let padLen := min firstSubtree poraChunkSize - leaves % firstSubtree
        merkle.appendList Sha3Algorithm.optional (List.replicate padLen padLeaf)
      else pure merkle
    let merkle ← merkle.appendSubtreeList Sha3Algorithm.optional
      (subtreeList.map fun node => (node.1, OptionalHash.some node.2))
    let merkle ← merkle.commit (some txSeq)
    replayTxList merkle rest

/-- `rebuild_last_chunk_merkle`: the last chunk, chunk `pora_chunk_index`,
as it was after `tx_seq`. The first chunk starts with the zero entry and
grows from depth `1`; the others have depth `11` from the start. -/
def rebuildLastChunkMerkle (poraChunkIndex txSeq : Nat) :
    Except Error (AppendMerkleTree OptionalHash) := do
  let lastChunkStartIndex := poraChunkIndex * poraChunkSize
  let txList ← ts.rebuildTxList lastChunkStartIndex txSeq []
  let merkle ← if lastChunkStartIndex = 0 then
      AppendMerkleTree.newWithDepth Sha3Algorithm.optional [OptionalHash.some H256.zero] 1 none
    else AppendMerkleTree.newWithDepth Sha3Algorithm.optional [] (log2Pow2 poraChunkSize + 1) none
  replayTxList merkle txList.reverse

end TransactionStore

end ZgStorage
