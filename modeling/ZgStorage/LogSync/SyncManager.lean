import ZgStorage.Storage.Config
import ZgStorage.LogStore.ChunkData

/-!
# Finalizing a transaction the node stores nothing of

`LogSyncManager::put_tx_inner` (`log_entry_sync/src/sync_manager/mod.rs`):
when the data of a new transaction is not at hand, the node finalizes it at
once if none of the flow segments the transaction covers is in its shard.
The test is a closed form. The segments of the shard are
`N = shard_id + m * num_shard`, and the transaction covers the segments
from `start_segment_index` to `end_segment_index`, so it covers one of them
exactly when the least `m` reaching the start is at most the greatest `m`
staying below the end (`exists_mod_eq_iff`), and never when the end is
below `shard_id`.

* `canFinalize_iff`: for a valid configuration, `can_finalize` holds exactly
  when no segment the transaction covers is in the shard.
-/

namespace ZgStorage

namespace LogSyncManager

/-- `can_finalize` of `put_tx_inner`: whether no segment of the transaction,
from `start_segment_index` to `end_segment_index`, is in the shard. -/
def canFinalize (shardConfig : ShardConfig) (tx : Transaction) : Bool :=
  let startSegmentIndex := tx.startEntryIndex / poraChunkSize
  let endSegmentIndex := (tx.startEntryIndex + bytesToChunks tx.size - 1) / poraChunkSize
  if endSegmentIndex < shardConfig.shardId then true
  else
    -- check if there is a number N between [start_segment_index, end_segment_index] that satisfy:
    -- N % num_shard = shard_id
    let minNGteStart := (startSegmentIndex + shardConfig.numShard - 1 - shardConfig.shardId) / shardConfig.numShard
    let maxNLteEnd := (endSegmentIndex - shardConfig.shardId) / shardConfig.numShard
    decide (minNGteStart > maxNLteEnd)

/-- Some `N ≡ r` modulo `k` lies in `[s, e]`, for `r ≤ e`, exactly when the
least `m` with `r + m * k ≥ s` is at most the greatest with `r + m * k ≤ e`. -/
theorem exists_mod_eq_iff {k r s e : Nat} (hr : r < k) (he : r ≤ e) :
    (∃ N, s ≤ N ∧ N ≤ e ∧ N % k = r) ↔ (s + k - 1 - r) / k ≤ (e - r) / k := by
  have hk : 0 < k := by omega
  constructor
  · rintro ⟨N, hs, hN, hmod⟩
    -- `N` is `r + m * k` for `m = N / k`, between the two bounds
    have hsplit := Nat.div_add_mod N k
    rw [hmod, Nat.mul_comm] at hsplit
    have hlow : (s + k - 1 - r) / k < N / k + 1 := by
      rw [Nat.div_lt_iff_lt_mul hk, Nat.succ_mul]
      omega
    have hhigh : N / k ≤ (e - r) / k := by
      rw [Nat.le_div_iff_mul_le hk]
      omega
    omega
  · intro h
    -- the least `m` reaching `s` gives the segment `r + m * k`
    refine ⟨r + (s + k - 1 - r) / k * k, ?_, ?_, ?_⟩
    · have hsplit := Nat.div_add_mod (s + k - 1 - r) k
      have hrem := Nat.mod_lt (s + k - 1 - r) hk
      rw [Nat.mul_comm] at hsplit
      omega
    · have := (Nat.le_div_iff_mul_le hk).mp h
      omega
    · rw [Nat.add_mul_mod_self_right, Nat.mod_eq_of_lt hr]

/-- `can_finalize` is exact: for a valid configuration, it holds when no
segment the transaction covers is in the shard, and only then. -/
theorem canFinalize_iff {c : ShardConfig} (hv : c.validate = .ok ()) (tx : Transaction) :
    canFinalize c tx = true ↔
      ¬ ∃ N, tx.startEntryIndex / poraChunkSize ≤ N ∧
        N ≤ (tx.startEntryIndex + bytesToChunks tx.size - 1) / poraChunkSize ∧ N % c.numShard = c.shardId := by
  obtain ⟨hid, -⟩ := ShardConfig.validate_eq_ok hv
  unfold canFinalize
  generalize tx.startEntryIndex / poraChunkSize = s
  generalize (tx.startEntryIndex + bytesToChunks tx.size - 1) / poraChunkSize = e
  dsimp only
  split
  · -- every segment up to the end is below `shard_id`, so none is in the shard
    rename_i he
    simp only [true_iff, not_exists, not_and]
    intro N _ hN hmod
    have := Nat.mod_le N c.numShard
    omega
  · rename_i he
    rw [exists_mod_eq_iff hid (Nat.le_of_not_lt he), decide_eq_true_iff]
    omega

theorem canFinalize_iff_secondShard :
    ShardConfig.validate ⟨2, 1⟩ = .ok () ∧
      (canFinalize ⟨2, 1⟩ ⟨0, 1024, [], 256, H256.zero⟩ = true ↔
        ¬ ∃ N, 1024 / poraChunkSize ≤ N ∧ N ≤ (1024 + bytesToChunks 256 - 1) / poraChunkSize ∧ N % 2 = 1) :=
  ⟨by decide, canFinalize_iff (c := ⟨2, 1⟩) (by decide) ⟨0, 1024, [], 256, H256.zero⟩⟩

end LogSyncManager

end ZgStorage
