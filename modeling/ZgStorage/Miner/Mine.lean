import ZgStorage.Storage.Config
import ZgStorage.LogStore.ChunkData
import ZgStorage.Framework.Except

/-!
# Recall ranges of a sharded miner

`MineRangeConfig::to_valid_range` (`miner/src/mine.rs`) turns the part of
the flow a miner mines, and its shard, into a `RecallRange`: the flow's
length rounded down to whole loads, capped at `SECTORS_PER_MAX_MINING_RANGE`
sectors per shard, and a start within it rounded down to a pricing chunk.
`RecallRange::load_position` (`recall_range.rs`) picks the load a seed
recalls: the seed modulo the loads of the range, with its low bits replaced
by `shard_id`.

For a valid configuration of `num_shard = 2 ^ k`, the mask clears the low `k`
bits (`and_twoPow_sub_twoPow`), so the recalled load is the seed's load
rounded down to a multiple of `num_shard`, plus `shard_id`
(`recallOffset_eq`). The last group of `num_shard` loads can run past the
range, and then past the flow.

* `loadPosition_spec`: for every range `as_miner` accepts, on a flow of
  fewer than `2 ^ 53` sectors, every seed recalls a load of the shard,
  counted from the range's start, within the range rounded up to whole
  groups of `num_shard` loads; inside the flow when `num_shard` divides the
  range's loads, and of the shard in the flow when it divides the start's
  loads; and `difficulty_scale_x64` never divides by zero;
* `loadPosition_past_flow`: on a flow of three loads and two shards, shard
  `1` recalls the fourth load, past the flow.
-/

namespace ZgStorage

/-- `SECTORS_PER_PRICING`: the sectors of `8 GiB`. -/
def sectorsPerPricing : Nat := 8 * 1024 ^ 3 / 256

/-- `SECTORS_PER_MAX_MINING_RANGE`: the sectors of `8 TiB`. -/
def sectorsPerMaxMiningRange : Nat := 8 * 1024 ^ 4 / 256

/-- `U256::from_big_endian`: the bytes as a number, the first the most
significant. -/
def U256.fromBigEndian (bytes : List UInt8) : Nat := bytes.foldl (fun acc b => acc * 256 + b.toNat) 0

/-- `U256::checked_rem`. -/
def U256.checkedRem (a b : Nat) : Option Nat := if b = 0 then none else some (a % b)

/-- `U256::as_u64`, which panics past `u64`. -/
def U256.asU64 (a : Nat) : Except Error Nat :=
  if a < 2 ^ 64 then pure a else throw (.panic "Integer overflow when casting to u64")

/-- `u64::checked_add`. -/
def u64CheckedAdd (a b : Nat) : Option Nat := if a + b < 2 ^ 64 then some (a + b) else none

/-- `u64::count_zeros`: the zero bits among the 64. -/
def countZeros (x : Nat) : Nat := ((List.range 64).filter fun i => !x.testBit i).length

/-- `RecallRange`: the sectors mined, `mining_length` of them from
`start_position` on, and the miner's shard. -/
structure RecallRange where
  startPosition : Nat
  miningLength : Nat
  shardMask : Nat
  shardId : Nat
  deriving DecidableEq, Repr

namespace RecallRange

/-- `load_position`: the first sector of the load a seed recalls, when the
range has loads. -/
def loadPosition (r : RecallRange) (seed : H256) : Except Error (Option Nat) :=
  (U256.checkedRem (U256.fromBigEndian seed.bytes) (r.miningLength / sectorsPerLoad)).elim (pure none)
    fun originRecallOffset => do
      let originRecallOffset ← U256.asU64 originRecallOffset
      let recallOffset := (originRecallOffset &&& r.shardMask) ||| r.shardId
      -- the product wraps around on a release build
      pure (u64CheckedAdd r.startPosition (recallOffset * sectorsPerLoad % 2 ^ 64))

/-- `difficulty_scale_x64`: the mining length without shards over the
sharded one, with 64 bits after the point. -/
def difficultyScaleX64 (r : RecallRange) (flowLength : Nat) : Except Error Nat :=
  let noShardMineLength := min flowLength sectorsPerMaxMiningRange
  -- a shift by 64 wraps around on a release build
  let shardedMineLength := min (flowLength >>> (countZeros r.shardMask % 64)) sectorsPerMaxMiningRange
  if shardedMineLength = 0 then throw (.panic "division by zero")
  else pure ((noShardMineLength <<< 64) / shardedMineLength)

end RecallRange

/-- `MineContext`, as far as the miner's range reads it: the length of the
flow in sectors. -/
structure MineContext where
  flowLength : Nat

/-- `MineRangeConfig`: the part of the flow to mine, and the shard. -/
structure MineRangeConfig where
  startPosition : Option Nat
  endPosition : Option Nat
  shardConfig : ShardConfig

/-- `MineRangeConfig::to_valid_range`. -/
def MineRangeConfig.toValidRange (m : MineRangeConfig) (context : MineContext) : Except Error (Option RecallRange) :=
  m.startPosition.elim (pure none) fun selfStartPosition =>
    m.endPosition.elim (pure none) fun selfEndPosition =>
      if selfStartPosition ≥ selfEndPosition then pure none
      else do
        let minableLength := (← U256.asU64 context.flowLength) / sectorsPerLoad * sectorsPerLoad
        -- a shift by 64 wraps around on a release build
        let numShards := 1 <<< (countZeros m.shardConfig.minerShardMask % 64)
        let miningLength := min minableLength (min (sectorsPerMaxMiningRange * numShards) (2 ^ 64 - 1))
        let startPosition := min selfStartPosition (minableLength - miningLength)
        let startPosition := startPosition / sectorsPerPricing * sectorsPerPricing
        pure (some ⟨startPosition, miningLength, m.shardConfig.minerShardMask, m.shardConfig.minerShardId⟩)

/-- `PoraPuzzle`, as far as `as_miner` reads it. -/
structure PoraPuzzle where
  context : MineContext
  maxShards : Nat

/-- `PoraService::as_miner`: the range the miner mines, or why it does not
mine (a `bail` with the `&str` of the source). -/
def asMiner (puzzle : Option PoraPuzzle) (mineRange : MineRangeConfig) : Except Error RecallRange := do
  let puzzle ← puzzle.elim (throw (.bail "no mine context")) pure
  let range ← (← mineRange.toValidRange puzzle.context).elim (throw (.bail "no mine range")) pure
  if range.miningLength = 0 then throw (.bail "mine range is zero")
  if puzzle.maxShards < mineRange.shardConfig.numShard then throw (.bail "too many mine shards")
  if puzzle.context.flowLength ≤ 1 then throw (.bail "no data submitted")
  if mineRange.shardConfig.numShard > (← U256.asU64 puzzle.context.flowLength) then
    throw (.bail "Not enough flow length to shard")
  pure range

/-! ### The mask of a shard -/

/-- The bits of `2 ^ 64 - 2 ^ k` are those from `k` to `63`. -/
theorem testBit_twoPow_sub_twoPow {k : Nat} (hk : k ≤ 64) (i : Nat) :
    (2 ^ 64 - 2 ^ k).testBit i = decide (k ≤ i ∧ i < 64) := by
  have hsplit : 2 ^ 64 - 2 ^ k = (2 ^ (64 - k) - 1) * 2 ^ k := by
    rw [Nat.sub_mul, Nat.one_mul, ← Nat.pow_add, Nat.sub_add_cancel hk]
  rw [hsplit, Nat.testBit_mul_two_pow, Nat.testBit_two_pow_sub_one]
  by_cases hki : k ≤ i
  · simp only [hki, decide_true, Bool.true_and, true_and, decide_eq_decide]
    omega
  · simp [hki]

/-- `2 ^ 64 - 2 ^ k` has `k` zero bits. -/
theorem countZeros_twoPow_sub_twoPow {k : Nat} (hk : k ≤ 64) : countZeros (2 ^ 64 - 2 ^ k) = k := by
  -- the zero bits are the first `k`
  have hbits : (List.range 64).filter (fun i => !(2 ^ 64 - 2 ^ k).testBit i) = List.range k := by
    rw [show List.range 64 = List.range (k + (64 - k)) by rw [Nat.add_sub_cancel' hk], List.range_add,
      List.filter_append]
    rw [List.filter_eq_self.mpr, List.filter_eq_nil_iff.mpr, List.append_nil]
    · intro i hi
      obtain ⟨j, hj, rfl⟩ := List.mem_map.mp hi
      rw [List.mem_range] at hj
      rw [testBit_twoPow_sub_twoPow hk]
      simp only [Bool.not_eq_true', decide_eq_false_iff_not, not_and, not_lt]
      omega
    · intro i hi
      rw [List.mem_range] at hi
      rw [testBit_twoPow_sub_twoPow hk]
      simp only [Bool.not_eq_true', decide_eq_false_iff_not, not_and, not_lt]
      omega
  rw [countZeros, hbits, List.length_range]

/-- Masking a `u64` with `2 ^ 64 - 2 ^ k` rounds it down to a multiple of
`2 ^ k`. -/
theorem and_twoPow_sub_twoPow {x k : Nat} (hx : x < 2 ^ 64) (hk : k ≤ 64) :
    x &&& (2 ^ 64 - 2 ^ k) = x / 2 ^ k * 2 ^ k := by
  apply Nat.eq_of_testBit_eq
  intro i
  rw [Nat.testBit_and, testBit_twoPow_sub_twoPow hk, Nat.testBit_mul_two_pow, Nat.testBit_div_two_pow]
  by_cases hki : k ≤ i
  · rw [Nat.sub_add_cancel hki]
    by_cases hi : i < 64
    · simp [hki, hi]
    · -- a `u64` has no bit from `64` on
      have : x.testBit i = false :=
        Nat.testBit_lt_two_pow (Nat.lt_of_lt_of_le hx (Nat.pow_le_pow_right (by decide) (by omega)))
      simp [hki, hi, this]
  · simp [hki]

/-- With the mask of `num_shard = 2 ^ k`, the recall offset is the seed's
load rounded down to a multiple of `num_shard`, plus `shard_id`. -/
theorem recallOffset_eq {x k r : Nat} (hx : x < 2 ^ 64) (hk : k ≤ 64) (hr : r < 2 ^ k) :
    (x &&& (2 ^ 64 - 2 ^ k)) ||| r = x / 2 ^ k * 2 ^ k + r := by
  rw [and_twoPow_sub_twoPow hx hk, ← Nat.shiftLeft_eq, Nat.shiftLeft_add_eq_or_of_lt hr]

/-! ### The range of a miner -/

/-- What `to_valid_range` returns: the flow's length is a `u64`, and the
range keeps the configuration's mask and `shard_id`, is capped at
`SECTORS_PER_MAX_MINING_RANGE` sectors per shard, and lies within the
flow's whole loads. -/
theorem toValidRange_eq_some {m : MineRangeConfig} {context : MineContext} {r : RecallRange}
    (h : m.toValidRange context = .ok (some r)) :
    context.flowLength < 2 ^ 64 ∧ r.shardMask = m.shardConfig.minerShardMask ∧ r.shardId = m.shardConfig.shardId ∧
      r.miningLength = min (context.flowLength / sectorsPerLoad * sectorsPerLoad)
        (min (sectorsPerMaxMiningRange * (1 <<< (countZeros m.shardConfig.minerShardMask % 64))) (2 ^ 64 - 1)) ∧
      r.startPosition + r.miningLength ≤ context.flowLength / sectorsPerLoad * sectorsPerLoad := by
  unfold MineRangeConfig.toValidRange at h
  cases hs : m.startPosition with
  | none => simp [hs] at h
  | some s =>
    cases he : m.endPosition with
    | none => simp [hs, he] at h
    | some e =>
      rw [hs, he, Option.elim_some, Option.elim_some] at h
      split at h
      · cases h
      unfold U256.asU64 at h
      split at h
      · rename_i hflow
        simp only [Except.pure_eq_ok, Except.ok_bind, Except.ok.injEq, Option.some.injEq] at h
        subst h
        refine ⟨hflow, rfl, rfl, rfl, ?_⟩
        -- the start is rounded down, below the last range that fits
        dsimp only
        have := Nat.div_mul_le_self (min s (context.flowLength / sectorsPerLoad * sectorsPerLoad -
          min (context.flowLength / sectorsPerLoad * sectorsPerLoad)
            (min (sectorsPerMaxMiningRange * (1 <<< (countZeros m.shardConfig.minerShardMask % 64))) (2 ^ 64 - 1))))
          sectorsPerPricing
        omega
      · cases h

/-- What `as_miner` checks of the range it accepts. -/
theorem asMiner_eq_ok {puzzle : PoraPuzzle} {m : MineRangeConfig} {r : RecallRange}
    (h : asMiner (some puzzle) m = .ok r) :
    m.toValidRange puzzle.context = .ok (some r) ∧ r.miningLength ≠ 0 ∧ m.shardConfig.numShard ≤ puzzle.maxShards ∧
      1 < puzzle.context.flowLength ∧ m.shardConfig.numShard ≤ puzzle.context.flowLength := by
  unfold asMiner at h
  cases hv : m.toValidRange puzzle.context with
  | error e => simp [hv] at h
  | ok x =>
    cases x with
    | none => simp [hv] at h
    | some range =>
      simp only [hv, Option.elim_some, Except.pure_eq_ok, Except.ok_bind, Except.throw_eq_error,
        Except.error_bind, U256.asU64] at h
      -- each check that fails returns an error
      by_cases h0 : range.miningLength = 0
      · rw [if_pos h0] at h
        cases h
      rw [if_neg h0] at h
      by_cases hmax : puzzle.maxShards < m.shardConfig.numShard
      · rw [if_pos hmax] at h
        cases h
      rw [if_neg hmax] at h
      by_cases hflow : puzzle.context.flowLength ≤ 1
      · rw [if_pos hflow] at h
        cases h
      rw [if_neg hflow] at h
      by_cases h64 : puzzle.context.flowLength < 2 ^ 64
      · rw [if_pos h64, Except.ok_bind] at h
        by_cases hshard : m.shardConfig.numShard > puzzle.context.flowLength
        · rw [if_pos hshard] at h
          cases h
        rw [if_neg hshard] at h
        cases h
        exact ⟨rfl, h0, Nat.le_of_not_lt hmax, Nat.lt_of_not_le hflow, Nat.le_of_not_lt hshard⟩
      · rw [if_neg h64, Except.error_bind] at h
        cases h

/-- A range `as_miner` accepts, of a shard of `num_shard = 2 ^ k`, on a
flow of `flowLength` sectors: whole loads, at least one, within the flow's
whole loads, with the mask of the shard. -/
structure ShardRange (r : RecallRange) (k flowLength : Nat) : Prop where
  mask : r.shardMask = 2 ^ 64 - 2 ^ k
  shardId_lt : r.shardId < 2 ^ k
  whole : r.miningLength % sectorsPerLoad = 0
  load_le : sectorsPerLoad ≤ r.miningLength
  within : r.startPosition + r.miningLength ≤ flowLength / sectorsPerLoad * sectorsPerLoad
  shards_le : 2 ^ k ≤ flowLength

/-- `as_miner` accepts, on a valid configuration and a flow of fewer than
`2 ^ 53` sectors, only ranges of whole loads of the shard within the flow. -/
theorem asMiner_shardRange {puzzle : PoraPuzzle} {m : MineRangeConfig} {r : RecallRange} {k : Nat}
    (hk : m.shardConfig.numShard = 2 ^ k) (hid : m.shardConfig.shardId < m.shardConfig.numShard)
    (hr : asMiner (some puzzle) m = .ok r) (hflow : puzzle.context.flowLength < 2 ^ 53) :
    ShardRange r k puzzle.context.flowLength := by
  obtain ⟨hrange, h0, -, -, hshards⟩ := asMiner_eq_ok hr
  obtain ⟨-, hmask, hrid, hlen, hwithin⟩ := toValidRange_eq_some hrange
  -- `num_shard ≤ flow_length` keeps the shard's exponent below `53`
  have hk53 : k < 53 := by
    rw [hk] at hshards
    exact (Nat.pow_lt_pow_iff_right (by decide)).mp (Nat.lt_of_le_of_lt hshards hflow)
  have hmask' : m.shardConfig.minerShardMask = 2 ^ 64 - 2 ^ k := ShardConfig.minerShardMask_eq hk (by omega)
  have hshift : 1 <<< (countZeros m.shardConfig.minerShardMask % 64) = 2 ^ k := by
    rw [hmask', countZeros_twoPow_sub_twoPow (by omega), Nat.mod_eq_of_lt (by omega), Nat.one_shiftLeft]
  rw [hshift] at hlen
  have hspl : sectorsPerLoad = 1024 := rfl
  have hmax : sectorsPerMaxMiningRange = 34359738368 := rfl
  refine ⟨hmask.trans hmask', hrid ▸ hk ▸ hid, ?_, ?_, hwithin, hk ▸ hshards⟩
  · -- the flow's whole loads and the cap are both whole loads
    rw [hlen, hspl, hmax]
    omega
  · -- and the range is not empty
    have := Nat.one_le_two_pow (n := k)
    rw [hlen, hspl, hmax] at h0 ⊢
    omega

namespace ShardRange

variable {r : RecallRange} {k flowLength : Nat} (hs : ShardRange r k flowLength)
include hs

theorem lt_of_flow (hflow : flowLength < 2 ^ 53) : k < 53 :=
  (Nat.pow_lt_pow_iff_right (by decide)).mp (Nat.lt_of_le_of_lt hs.shards_le hflow)

/-- On a flow of fewer than `2 ^ 53` sectors, a seed recalls the load that
its own, modulo the range's loads, rounds down to a multiple of
`num_shard`, plus `shard_id`: nothing overflows. -/
theorem loadPosition_eq (hflow : flowLength < 2 ^ 53) (seed : H256) :
    r.loadPosition seed = .ok (some (r.startPosition +
      (U256.fromBigEndian seed.bytes % (r.miningLength / sectorsPerLoad) / 2 ^ k * 2 ^ k + r.shardId) *
        sectorsPerLoad)) := by
  have hspl : sectorsPerLoad = 1024 := rfl
  have hk := hs.lt_of_flow hflow
  have hpow : 2 ^ k < 2 ^ 53 := Nat.pow_lt_pow_right (by decide) hk
  have hL : 0 < r.miningLength / sectorsPerLoad := Nat.div_pos hs.load_le (by decide)
  -- the seed's load, and its multiple of `num_shard` below it
  have ho := Nat.mod_lt (U256.fromBigEndian seed.bytes) hL
  have hround :=
    Nat.div_mul_le_self (U256.fromBigEndian seed.bytes % (r.miningLength / sectorsPerLoad)) (2 ^ k)
  have hwithin := hs.within
  have hid := hs.shardId_lt
  rw [hspl] at hL ho hround hwithin ⊢
  unfold RecallRange.loadPosition
  rw [U256.checkedRem, if_neg (Nat.pos_iff_ne_zero.mp (hspl ▸ hL)), Option.elim_some, U256.asU64,
    if_pos (by rw [hspl]; omega), Except.pure_eq_ok, Except.ok_bind, hs.mask, hspl,
    recallOffset_eq (by omega) (by omega) hid]
  dsimp only
  rw [Nat.mod_eq_of_lt (a := (U256.fromBigEndian seed.bytes % (r.miningLength / 1024) / 2 ^ k * 2 ^ k + r.shardId) * 1024)
      (by omega), u64CheckedAdd, if_pos (by omega)]
  rfl

/-- On a flow of fewer than `2 ^ 53` sectors, `difficulty_scale_x64` does not
divide by zero: the flow holds at least one sector per shard. -/
theorem difficultyScaleX64_ok (hflow : flowLength < 2 ^ 53) : ∃ d, r.difficultyScaleX64 flowLength = .ok d := by
  have hk := hs.lt_of_flow hflow
  have hper : 1 ≤ flowLength / 2 ^ k := (Nat.one_le_div_iff (Nat.two_pow_pos k)).mpr hs.shards_le
  have hmax : sectorsPerMaxMiningRange = 34359738368 := rfl
  unfold RecallRange.difficultyScaleX64
  rw [hs.mask, countZeros_twoPow_sub_twoPow (by omega), Nat.mod_eq_of_lt (by omega), Nat.shiftRight_eq_div_pow,
    if_neg (by omega)]
  exact ⟨_, rfl⟩

end ShardRange

/-- A multiple of `n` at most `o < L`, plus a residue below `n`, ends at most
where `L` rounded up to a multiple of `n` does. -/
theorem add_residue_le_roundUp {o L n r : Nat} (ho : o < L) (hr : r < n) :
    o / n * n + r + 1 ≤ (L + n - 1) / n * n := by
  have hn : 0 < n := by omega
  have hdiv : o / n ≤ (L - 1) / n := Nat.div_le_div_right (by omega)
  have hmul : o / n * n ≤ (L - 1) / n * n := Nat.mul_le_mul_right n hdiv
  have hup : (L + n - 1) / n = (L - 1) / n + 1 := by
    rw [show L + n - 1 = L - 1 + n by omega, Nat.add_div_right _ hn]
  rw [hup, Nat.succ_mul]
  omega

/-- Rounding a multiple of `n` up to a multiple of `n` keeps it. -/
theorem roundUp_of_dvd {L n : Nat} (hn : 0 < n) (h : n ∣ L) : (L + n - 1) / n * n = L := by
  obtain ⟨q, rfl⟩ := h
  rw [show n * q + n - 1 = n - 1 + q * n by rw [Nat.mul_comm]; omega, Nat.add_mul_div_right _ _ hn,
    Nat.div_eq_of_lt (by omega), Nat.zero_add, Nat.mul_comm]

/-- A multiple of `n`, plus a residue below `n`, has that residue. -/
theorem mul_add_mod_of_lt {a n r : Nat} (hr : r < n) : (a * n + r) % n = r := by
  rw [Nat.add_comm, Nat.add_mul_mod_self_right, Nat.mod_eq_of_lt hr]

/-- For every range `as_miner` accepts on a valid configuration, over a flow
of fewer than `2 ^ 53` sectors (`2 EiB`), every seed recalls a load: one of
the shard counted from the range's start, and within the range's loads
rounded up to whole groups of `num_shard`; inside the flow when `num_shard`
divides the range's loads, and of the shard in the flow when it divides the
loads before the start. `difficulty_scale_x64` does not divide by zero. -/
theorem loadPosition_spec {puzzle : PoraPuzzle} {m : MineRangeConfig} {r : RecallRange}
    (hv : m.shardConfig.validate = .ok ()) (hr : asMiner (some puzzle) m = .ok r)
    (hflow : puzzle.context.flowLength < 2 ^ 53) (seed : H256) :
    (∃ p, r.loadPosition seed = .ok (some p) ∧ r.startPosition ≤ p ∧ (p - r.startPosition) % sectorsPerLoad = 0 ∧
      (p - r.startPosition) / sectorsPerLoad % m.shardConfig.numShard = m.shardConfig.shardId ∧
      p + sectorsPerLoad ≤ r.startPosition + (r.miningLength / sectorsPerLoad + m.shardConfig.numShard - 1) /
        m.shardConfig.numShard * m.shardConfig.numShard * sectorsPerLoad ∧
      (m.shardConfig.numShard ∣ r.miningLength / sectorsPerLoad →
        p + sectorsPerLoad ≤ puzzle.context.flowLength / sectorsPerLoad * sectorsPerLoad) ∧
      (m.shardConfig.numShard ∣ r.startPosition / sectorsPerLoad →
        p / sectorsPerLoad % m.shardConfig.numShard = m.shardConfig.shardId)) ∧
    ∃ d, r.difficultyScaleX64 puzzle.context.flowLength = .ok d := by
  obtain ⟨hid, k, hk⟩ := ShardConfig.validate_eq_ok hv
  have hs := asMiner_shardRange hk hid hr hflow
  refine ⟨?_, hs.difficultyScaleX64_ok hflow⟩
  have hrid : r.shardId = m.shardConfig.shardId := (toValidRange_eq_some (asMiner_eq_ok hr).1).2.2.1
  have hL0 : 0 < r.miningLength / sectorsPerLoad := Nat.div_pos hs.load_le (by decide)
  have hoL := Nat.mod_lt (U256.fromBigEndian seed.bytes) hL0
  have hp := hs.loadPosition_eq hflow seed
  have hwhole : r.miningLength / sectorsPerLoad * sectorsPerLoad = r.miningLength :=
    Nat.div_mul_cancel (Nat.dvd_of_mod_eq_zero hs.whole)
  have hwithin := hs.within
  -- `o`, the seed's load in the range, of the `L` loads of the range
  generalize U256.fromBigEndian seed.bytes % (r.miningLength / sectorsPerLoad) = o at hoL hp
  generalize r.miningLength / sectorsPerLoad = L at hoL hL0 hwhole ⊢
  rw [hrid] at hp
  rw [hk]
  have hroom := add_residue_le_roundUp hoL (hk ▸ hid)
  have hspl : sectorsPerLoad = 1024 := rfl
  refine ⟨_, hp, Nat.le_add_right _ _, ?_, ?_, ?_, ?_, ?_⟩
  · rw [Nat.add_sub_cancel_left, Nat.mul_mod_left]
  · rw [Nat.add_sub_cancel_left, Nat.mul_div_cancel _ (by decide), mul_add_mod_of_lt (hk ▸ hid)]
  · -- one load past the recalled one is still within the rounded range
    have := Nat.mul_le_mul_right sectorsPerLoad hroom
    rw [hspl] at this ⊢
    omega
  · intro hdvd
    rw [roundUp_of_dvd (Nat.two_pow_pos k) hdvd] at hroom
    have := Nat.mul_le_mul_right sectorsPerLoad hroom
    rw [hspl] at this hwhole hwithin ⊢
    omega
  · rintro ⟨c, hc⟩
    rw [Nat.add_mul_div_right _ _ (by decide), hc, ← Nat.add_assoc, Nat.mul_comm (2 ^ k) c, ← Nat.add_mul,
      mul_add_mod_of_lt (hk ▸ hid)]

theorem loadPosition_spec_fourLoads :
    (ShardConfig.mk 2 1).validate = .ok () ∧
      asMiner (some ⟨⟨4096⟩, 2⟩) ⟨some 0, some 1, ⟨2, 1⟩⟩ = .ok ⟨0, 4096, 2 ^ 64 - 2, 1⟩ ∧ 4096 < 2 ^ 53 ∧
      (∃ p, (RecallRange.mk 0 4096 (2 ^ 64 - 2) 1).loadPosition (Vector.replicate 32 7) = .ok (some p) ∧ 0 ≤ p ∧
        (p - 0) % sectorsPerLoad = 0 ∧ (p - 0) / sectorsPerLoad % 2 = 1 ∧
        p + sectorsPerLoad ≤ 0 + (4096 / sectorsPerLoad + 2 - 1) / 2 * 2 * sectorsPerLoad ∧
        (2 ∣ 4096 / sectorsPerLoad → p + sectorsPerLoad ≤ 4096 / sectorsPerLoad * sectorsPerLoad) ∧
        (2 ∣ 0 / sectorsPerLoad → p / sectorsPerLoad % 2 = 1)) ∧
      ∃ d, (RecallRange.mk 0 4096 (2 ^ 64 - 2) 1).difficultyScaleX64 4096 = .ok d :=
  ⟨by decide, by decide, by decide,
    @loadPosition_spec ⟨⟨4096⟩, 2⟩ ⟨some 0, some 1, ⟨2, 1⟩⟩ ⟨0, 4096, 2 ^ 64 - 2, 1⟩ (by decide) (by decide) (by decide) _⟩

/-- The seed of value `2`. -/
def seedTwo : H256 := Vector.replicate 31 0 |>.push 2

/-- On a flow of three loads and two shards, shard `1` mines the three
loads, and the seed `2` recalls the fourth, past the flow. -/
theorem loadPosition_past_flow :
    (ShardConfig.mk 2 1).validate = .ok () ∧
      MineRangeConfig.toValidRange ⟨some 0, some 1, ⟨2, 1⟩⟩ ⟨3072⟩ = .ok (some ⟨0, 3072, 2 ^ 64 - 2, 1⟩) ∧
      asMiner (some ⟨⟨3072⟩, 2⟩) ⟨some 0, some 1, ⟨2, 1⟩⟩ = .ok ⟨0, 3072, 2 ^ 64 - 2, 1⟩ ∧
      (RecallRange.mk 0 3072 (2 ^ 64 - 2) 1).loadPosition seedTwo = .ok (some 3072) ∧
      3072 / sectorsPerLoad * sectorsPerLoad < 3072 + sectorsPerLoad :=
  ⟨by decide, by decide, by decide, by decide, by decide⟩

end ZgStorage
