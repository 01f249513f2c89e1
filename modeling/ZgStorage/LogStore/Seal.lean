import ZgStorage.LogStore.ChunkData
import ZgStorage.Framework.Except

/-!
# Sealing

`zgs_seal`: a seal of 4 KiB is masked word by word (32 bytes); the first
mask is the hash of a seed made of the miner id, the context digest and the
seal's first sector, and each later mask is the hash of the word sealed
before it. Unsealing runs the same chain, hashing each sealed word before it
unmasks it, so it undoes sealing (`unsealLoop_sealLoop`).

`SealInfo` (`seal.rs`): which seals of a load are sealed, and the contexts
they were sealed with, as a list of context digests each with the seal index
its epoch ends at; a seal's context is the first one that ends after it
(`context_index`).
-/

namespace ZgStorage

/-- `BYTES_PER_SEAL`. -/
def bytesPerSeal : Nat := 4 * 1024

/-- `SEALS_PER_LOAD`. -/
def sealsPerLoad : Nat := 256 * 1024 / (4 * 1024)

namespace ZgsSeal

/-- `u64::to_be_bytes`: the eight bytes of a `u64`, the most significant
first. -/
def u64BeBytes (n : Nat) : List UInt8 := (List.range 8).reverse.map fun i => UInt8.ofNat (n / 256 ^ i)

/-- `compute_first_mask_seed`: the miner id, the context digest, 24 zero
bytes and the start sector. -/
def computeFirstMaskSeed (minerId contextDigest : H256) (startSector : Nat) : List UInt8 :=
  minerId.bytes ++ contextDigest.bytes ++ List.replicate 24 0 ++ u64BeBytes startSector

/-- A word masked byte by byte, as far as the word goes (`zip`). -/
def maskWord (word : List UInt8) (mask : H256) : List UInt8 := List.zipWith (· ^^^ ·) word mask.bytes

variable [Keccak]

/-- The loop of `seal_with_mask` over the words of `data`: each word is
masked, and the next mask is the hash of the word as sealed. -/
def sealLoop (mask : H256) (data : List UInt8) : List UInt8 :=
  if _h : data = [] then [] else
    let word := maskWord (data.take 32) mask
    word ++ sealLoop (Keccak.keccak word) (data.drop 32)
termination_by data.length
decreasing_by
  rw [List.length_drop]
  have := List.length_pos_of_ne_nil _h
  omega

/-- The loop of `unseal_with_mask`: the next mask is the hash of the word
before it is unmasked. -/
def unsealLoop (mask : H256) (data : List UInt8) : List UInt8 :=
  if _h : data = [] then [] else
    let word := data.take 32
    maskWord word mask ++ unsealLoop (Keccak.keccak word) (data.drop 32)
termination_by data.length
decreasing_by
  rw [List.length_drop]
  have := List.length_pos_of_ne_nil _h
  omega

/-- `seal_with_mask`. -/
def sealWithMask (data : List UInt8) (firstMask : H256) : Except Error (List UInt8) :=
  if data.length % 32 = 0 then .ok (sealLoop firstMask data)
  else .error (.panic "assertion failed: data.len() % 32 == 0")

/-- `unseal_with_mask`. -/
def unsealWithMask (data : List UInt8) (firstMask : H256) : Except Error (List UInt8) :=
  if data.length % 32 = 0 then .ok (unsealLoop firstMask data)
  else .error (.panic "assertion failed: data.len() % 32 == 0")

/-- `seal_with_mask_seed`. -/
def sealWithMaskSeed (data firstMaskSeed : List UInt8) : Except Error (List UInt8) :=
  sealWithMask data (Keccak.keccak firstMaskSeed)

/-- `unseal_with_mask_seed`. -/
def unsealWithMaskSeed (data firstMaskSeed : List UInt8) : Except Error (List UInt8) :=
  unsealWithMask data (Keccak.keccak firstMaskSeed)

/-- `seal`. -/
def «seal» (data : List UInt8) (minerId contextDigest : H256) (startSector : Nat) :
    Except Error (List UInt8) :=
  sealWithMaskSeed data (computeFirstMaskSeed minerId contextDigest startSector)

/-- `unseal`. -/
def «unseal» (data : List UInt8) (minerId contextDigest : H256) (startSector : Nat) :
    Except Error (List UInt8) :=
  unsealWithMaskSeed data (computeFirstMaskSeed minerId contextDigest startSector)

section Chain

omit [Keccak] in
@[simp] theorem length_bytes (h : H256) : h.bytes.length = 32 := Vector.length_toList

omit [Keccak] in
theorem length_maskWord (word : List UInt8) (mask : H256) :
    (maskWord word mask).length = min word.length 32 := by
  simp [maskWord]

omit [Keccak] in
/-- Masking twice with the same mask gives the word back. -/
theorem maskWord_maskWord {word : List UInt8} (mask : H256) (hw : word.length ≤ 32) :
    maskWord (maskWord word mask) mask = word := by
  apply List.ext_getElem
  · simp [length_maskWord]
    omega
  · intro i h₁ h₂
    simp [maskWord]

theorem length_sealLoop (mask : H256) (data : List UInt8) : (sealLoop mask data).length = data.length := by
  fun_induction sealLoop mask data with
  | case1 => rfl
  | case2 mask data h _ ih =>
    rw [List.length_append, ih, length_maskWord, List.length_drop, List.length_take]
    omega

theorem length_unsealLoop (mask : H256) (data : List UInt8) :
    (unsealLoop mask data).length = data.length := by
  fun_induction unsealLoop mask data with
  | case1 => rfl
  | case2 mask data h _ ih =>
    rw [List.length_append, ih, length_maskWord, List.length_drop, List.length_take]
    omega

omit [Keccak] in
/-- The first word of a chain of words, and the rest: the word has `32`
bytes, or nothing follows it. -/
theorem take_drop_append {w r : List UInt8} (h : w.length = 32 ∨ r = []) (hw : w.length ≤ 32) :
    (w ++ r).take 32 = w ∧ (w ++ r).drop 32 = r := by
  rcases h with h | rfl
  · exact ⟨by simp [h], by simp [h]⟩
  · exact ⟨by simpa using hw, by simpa using hw⟩

theorem sealLoop_nil (mask : H256) : sealLoop mask [] = [] := by
  rw [sealLoop, dif_pos rfl]

theorem unsealLoop_nil (mask : H256) : unsealLoop mask [] = [] := by
  rw [unsealLoop, dif_pos rfl]

/-- The first sealed word is a whole word, or nothing follows it. -/
theorem sealLoop_word (mask : H256) (data : List UInt8) :
    (maskWord (data.take 32) mask).length = 32 ∨
      sealLoop (Keccak.keccak (maskWord (data.take 32) mask)) (data.drop 32) = [] := by
  by_cases hd : 32 ≤ data.length
  · left
    simp [length_maskWord, hd]
  · right
    rw [List.drop_eq_nil_of_le (by omega), sealLoop_nil]

/-- The first word of the sealed data is the first word masked, and sealing
goes on from its hash. -/
theorem take_drop_sealLoop (mask : H256) (data : List UInt8) :
    (sealLoop mask data).take 32 = maskWord (data.take 32) mask ∧
      (sealLoop mask data).drop 32 = sealLoop (Keccak.keccak (maskWord (data.take 32) mask)) (data.drop 32) := by
  by_cases h : data = []
  · subst h
    simp [sealLoop_nil, maskWord]
  · rw [sealLoop, dif_neg h]
    exact take_drop_append (sealLoop_word mask data) (by rw [length_maskWord]; exact Nat.min_le_right _ _)

/-- Unsealing undoes sealing: each sealed word hashes to the mask of the
next, as it did when it was sealed. -/
theorem unsealLoop_sealLoop (mask : H256) (data : List UInt8) :
    unsealLoop mask (sealLoop mask data) = data := by
  fun_induction sealLoop mask data with
  | case1 => exact unsealLoop_nil _
  | case2 mask data h word ih =>
    dsimp only [word] at ih
    have hlen : (maskWord (data.take 32) mask).length = min (data.take 32).length 32 :=
      length_maskWord _ mask
    have hsplit := take_drop_append (sealLoop_word mask data) (by rw [hlen]; exact Nat.min_le_right _ _)
    have hne : maskWord (data.take 32) mask ++
        sealLoop (Keccak.keccak (maskWord (data.take 32) mask)) (data.drop 32) ≠ [] := by
      have : maskWord (data.take 32) mask ≠ [] := by
        rw [← List.length_pos_iff, hlen]
        simp [List.length_pos_iff.mpr h]
      simp [this]
    rw [unsealLoop, dif_neg hne, hsplit.1, hsplit.2]
    dsimp only
    rw [ih, maskWord_maskWord mask (by simp)]
    exact List.take_append_drop 32 data

/-- Unsealing works word by word: it commits to a prefix of whole words. -/
theorem unsealLoop_take (k : Nat) : ∀ (mask : H256) (data : List UInt8),
    unsealLoop mask (data.take (32 * k)) = (unsealLoop mask data).take (32 * k) := by
  induction k with
  | zero => intro mask data; simp [unsealLoop_nil]
  | succ k ih =>
    intro mask data
    by_cases h : data = []
    · subst h
      simp [unsealLoop_nil]
    · have hne : data.take (32 * (k + 1)) ≠ [] := by simp [h]
      rw [unsealLoop, dif_neg hne, unsealLoop, dif_neg h]
      have htake : (data.take (32 * (k + 1))).take 32 = data.take 32 := by
        rw [List.take_take, Nat.min_eq_left (by omega)]
      have hdrop : (data.take (32 * (k + 1))).drop 32 = (data.drop 32).take (32 * k) := by
        rw [List.drop_take, show 32 * (k + 1) - 32 = 32 * k by omega]
      dsimp only
      rw [htake, hdrop, ih]
      have hlen : (maskWord (data.take 32) mask).length = 32 ∨ (unsealLoop (Keccak.keccak (data.take 32)) (data.drop 32)) = [] := by
        by_cases hd : 32 ≤ data.length
        · left; simp [length_maskWord, hd]
        · right; rw [List.drop_eq_nil_of_le (by omega), unsealLoop_nil]
      have hw : (maskWord (data.take 32) mask).length ≤ 32 * (k + 1) := by
        rw [length_maskWord]; omega
      rw [List.take_append, List.take_of_length_le hw]
      rcases hlen with hlen | hnil
      · rw [hlen, show 32 * (k + 1) - 32 = 32 * k by omega]
      · simp [hnil]

/-- The first word of unsealed data is the first word unmasked. -/
theorem take_unsealLoop (mask : H256) (data : List UInt8) :
    (unsealLoop mask data).take 32 = maskWord (data.take 32) mask := by
  have h := unsealLoop_take 1 mask data
  rw [Nat.mul_one] at h
  rw [← h]
  by_cases hd : data = []
  · subst hd
    simp [unsealLoop_nil, maskWord]
  · rw [unsealLoop, dif_neg (by simpa using hd), List.take_take, Nat.min_self,
      List.drop_eq_nil_of_le (by simp)]
    dsimp only
    rw [unsealLoop_nil, List.append_nil]

/-- Unsealing from the sealed word before a position (its hash is the mask
sealing went on with) gives back the data from there. -/
theorem unsealLoop_drop_sealLoop (k : Nat) : ∀ (mask : H256) (data : List UInt8),
    unsealLoop (Keccak.keccak (((sealLoop mask data).drop (32 * k)).take 32))
      ((sealLoop mask data).drop (32 * k + 32)) = data.drop (32 * k + 32) := by
  induction k with
  | zero =>
    intro mask data
    obtain ⟨htake, hdrop⟩ := take_drop_sealLoop mask data
    simp only [Nat.mul_zero, List.drop_zero, Nat.zero_add, htake, hdrop, unsealLoop_sealLoop]
  | succ k ih =>
    intro mask data
    -- one word further on, sealing is the sealing of the rest from the next mask
    have hdrop := (take_drop_sealLoop mask data).2
    have hshift : ∀ (l : List UInt8) (n : Nat), l.drop (32 * (k + 1) + n) = (l.drop 32).drop (32 * k + n) := by
      intro l n
      rw [List.drop_drop]
      congr 1
      omega
    have hshift0 := fun l => hshift l 0
    simp only [Nat.add_zero] at hshift0
    rw [hshift0, hshift, hshift, hdrop]
    exact ih _ _

/-- The chain through the functions that assert whole words: what
`seal_with_mask` seals unseals with the same first mask; the words from `k`
on unseal with the sealed word before them as mask seed; and every prefix of
whole words unseals to the same prefix of the data. -/
theorem sealWithMask_unseal {data : List UInt8} (hd : data.length % 32 = 0) (firstMask : H256) :
    ∃ sealed, sealWithMask data firstMask = .ok sealed ∧
      unsealWithMask sealed firstMask = .ok data ∧
      (∀ k, 1 ≤ k → unsealWithMaskSeed (sealed.drop (32 * k)) ((sealed.drop (32 * (k - 1))).take 32) =
        .ok (data.drop (32 * k))) ∧
      ∀ n, n % 32 = 0 → unsealWithMask (sealed.take n) firstMask = .ok (data.take n) := by
  refine ⟨sealLoop firstMask data, if_pos hd, ?_, ?_, ?_⟩
  · rw [unsealWithMask, if_pos (by rw [length_sealLoop]; exact hd), unsealLoop_sealLoop]
  · intro k hk
    obtain ⟨j, rfl⟩ : ∃ j, k = j + 1 := ⟨k - 1, by omega⟩
    have hlen : ((sealLoop firstMask data).drop (32 * (j + 1))).length % 32 = 0 := by
      rw [List.length_drop, length_sealLoop]
      omega
    rw [unsealWithMaskSeed, unsealWithMask, if_pos hlen, Nat.add_sub_cancel,
      show 32 * (j + 1) = 32 * j + 32 by omega, unsealLoop_drop_sealLoop]
  · intro n hn
    have hlen : ((sealLoop firstMask data).take n).length % 32 = 0 := by
      rw [List.length_take, length_sealLoop]
      omega
    -- a prefix of whole words is the first `n / 32` words
    rw [unsealWithMask, if_pos hlen, show n = 32 * (n / 32) by omega, unsealLoop_take, unsealLoop_sealLoop]

end Chain

end ZgsSeal

theorem sealWithMask_unseal_twoWords :
    (List.replicate 64 (0 : UInt8)).length % 32 = 0 ∧
      ∃ sealed, ZgsSeal.sealWithMask (List.replicate 64 0) H256.zero = .ok sealed ∧
        ZgsSeal.unsealWithMask sealed H256.zero = .ok (List.replicate 64 0) ∧
        (∀ k, 1 ≤ k → ZgsSeal.unsealWithMaskSeed (sealed.drop (32 * k)) ((sealed.drop (32 * (k - 1))).take 32) =
          .ok ((List.replicate 64 0).drop (32 * k))) ∧
        ∀ n, n % 32 = 0 → ZgsSeal.unsealWithMask (sealed.take n) H256.zero = .ok ((List.replicate 64 0).take n) :=
  ⟨by decide, ZgsSeal.sealWithMask_unseal (by decide) H256.zero⟩

/-- `SealContextInfo`: the digest of an epoch's context, and the seal index
(within the load) the epoch ends before. -/
structure SealContextInfo where
  contextDigest : H256
  endSealIndex : Nat
  deriving DecidableEq, Inhabited

/-- `SealInfo`. The bitmap `ChunkSealBitmap` is a predicate on the seals of
the load. -/
structure SealInfo where
  bitmap : Nat → Bool
  loadIndex : Nat
  minerId : H256
  sealContexts : List SealContextInfo

namespace SealInfo

/-- `SealInfo::new`. -/
def new (loadIndex : Nat) : SealInfo := ⟨fun _ => false, loadIndex, H256.zero, []⟩

def isSealed (s : SealInfo) (sealIndex : Nat) : Bool := s.bitmap sealIndex

def markSealed (s : SealInfo) (sealIndex : Nat) : SealInfo :=
  { s with bitmap := fun i => if i = sealIndex then true else s.bitmap i }

def globalSealSector (s : SealInfo) (index : Nat) : Nat :=
  s.loadIndex * sectorsPerLoad + index * sectorsPerSeal

/-- `context_index`: the position of the first context that ends after the
seal. The seal index is a `u16`, and so is its successor. -/
def contextIndex (s : SealInfo) (sealIndex : Nat) : Nat :=
  match Runs.binarySearchByKey SealContextInfo.endSealIndex (wrappingAdd 16 sealIndex 1) s.sealContexts with
  | .ok x => x
  | .error x => x

def getSealContextDigest (s : SealInfo) (sealIndex : Nat) : Option H256 :=
  (s.sealContexts[s.contextIndex sealIndex]?).map (·.contextDigest)

/-- `set_seal_context`: record the context of the epoch that ends at seal
`global_end_seal_index`. -/
def setSealContext (s : SealInfo) (contextDigest : H256) (globalEndSealIndex : Nat) (minerId : H256) :
    Except Error SealInfo := do
  -- 1. Check consistency of the miner id.
  let s ← if s.minerId = H256.zero then pure { s with minerId }
    else if s.minerId = minerId then pure s
    else throw (.panic "miner_id setting is inconsistent with db")
  -- 2. Compute the local end_seal_index
  let endSealIndex := min (wrappingSub 64 globalEndSealIndex (s.loadIndex * sealsPerLoad)) sealsPerLoad
  let newContext : SealContextInfo := ⟨contextDigest, endSealIndex⟩
  -- 3. Update the seal context array by cases; at `0` the `u16` position
  -- wraps, and `context_index` wraps it back
  let insertPosition := s.contextIndex (wrappingSub 16 endSealIndex 1)
  match s.sealContexts[insertPosition]? with
  | some existingContext =>
    if existingContext.contextDigest = newContext.contextDigest then pure s
    else pure { s with sealContexts := s.sealContexts.insertIdx insertPosition newContext }
  | none => pure { s with sealContexts := s.sealContexts ++ [newContext] }

/-- `truncated_seal_index`: where the epoch before the seal's ends. -/
def truncatedSealIndex (s : SealInfo) (revertedSealIndex : Nat) : Nat :=
  let truncatedContext := s.contextIndex revertedSealIndex
  if truncatedContext = 0 then 0 else s.sealContexts[truncatedContext - 1]!.endSealIndex

/-- `SealInfo::truncate`: forget the seals from the start of the reverted
seal's epoch on, and the contexts from its own. The bitmap is a `u64`,
masked with `(1 << index) - 1`: the shift takes its amount modulo `64`, so
that an index of `64` clears it. -/
def truncate (s : SealInfo) (revertedSealIndex : Nat) : SealInfo :=
  let truncatedContextIndex := s.contextIndex revertedSealIndex
  let truncatedSealIndex := s.truncatedSealIndex revertedSealIndex
  { s with bitmap := fun i => s.bitmap i && decide (i < truncatedSealIndex % sealsPerLoad),
           sealContexts := s.sealContexts.take truncatedContextIndex }

@[simp] theorem isSealed_markSealed (s : SealInfo) (i j : Nat) :
    (s.markSealed i).isSealed j = (j == i || s.isSealed j) := by
  by_cases h : j = i <;> simp [markSealed, isSealed, h]

/-- On contexts whose ends strictly increase, the context of a seal of the
load is the first one that ends after it. -/
theorem contextIndex_lt_iff {s : SealInfo}
    (hs : s.sealContexts.Pairwise fun x y => x.endSealIndex < y.endSealIndex) (i : Nat) (hi : i < sealsPerLoad) :
    s.contextIndex i ≤ s.sealContexts.length ∧ ∀ (j : Nat) (hj : j < s.sealContexts.length),
      j < s.contextIndex i ↔ s.sealContexts[j].endSealIndex ≤ i := by
  have h := Runs.binarySearchByKey_lt_iff hs (x := i + 1) (i := s.contextIndex i) (by
    unfold contextIndex
    rw [wrappingAdd_of_lt (Nat.lt_of_lt_of_le (Nat.succ_lt_succ hi) (by decide))]
    split <;> simp_all)
  exact ⟨h.1, fun j hj => (h.2 j hj).trans Nat.lt_succ_iff⟩

/-- What `set_seal_context` does when the miner id agrees and the epoch ends
after the load starts: the miner id is set, and the new context is skipped
when the context at its position has its digest, inserted there when not,
and pushed when there is none. -/
theorem setSealContext_ok {s : SealInfo} {contextDigest : H256} {globalEndSealIndex : Nat} {minerId : H256}
    (hm : s.minerId = H256.zero ∨ s.minerId = minerId) (he : s.loadIndex * sealsPerLoad < globalEndSealIndex) :
    let newContext : SealContextInfo :=
      ⟨contextDigest, min (globalEndSealIndex - s.loadIndex * sealsPerLoad) sealsPerLoad⟩
    let insertPosition := s.contextIndex (newContext.endSealIndex - 1)
    ∃ s', s.setSealContext contextDigest globalEndSealIndex minerId = .ok s' ∧ s'.bitmap = s.bitmap ∧
      s'.loadIndex = s.loadIndex ∧ s'.minerId = minerId ∧
      ((∃ x, s.sealContexts[insertPosition]? = some x ∧ x.contextDigest = contextDigest ∧
          s'.sealContexts = s.sealContexts) ∨
        (∃ x, s.sealContexts[insertPosition]? = some x ∧ x.contextDigest ≠ contextDigest ∧
          s'.sealContexts = s.sealContexts.insertIdx insertPosition newContext) ∨
        (s.sealContexts[insertPosition]? = none ∧ s'.sealContexts = s.sealContexts ++ [newContext])) := by
  intro newContext insertPosition
  -- the epoch ends after the load starts, so neither subtraction wraps
  have hsub : wrappingSub 64 globalEndSealIndex (s.loadIndex * sealsPerLoad) =
      globalEndSealIndex - s.loadIndex * sealsPerLoad := wrappingSub_of_le (Nat.le_of_lt he)
  have hpred : wrappingSub 16 (min (globalEndSealIndex - s.loadIndex * sealsPerLoad) sealsPerLoad) 1 =
      newContext.endSealIndex - 1 := by
    apply wrappingSub_of_le
    unfold sealsPerLoad at *
    omega
  -- step 1 sets the miner id, or finds it set to the same: either way the
  -- seal info goes on as `s` with `minerId`
  have hstep : s.setSealContext contextDigest globalEndSealIndex minerId =
      match s.sealContexts[insertPosition]? with
      | some existingContext =>
        if existingContext.contextDigest = contextDigest then .ok { s with minerId }
        else .ok { s with minerId, sealContexts := s.sealContexts.insertIdx insertPosition newContext }
      | none => .ok { s with minerId, sealContexts := s.sealContexts ++ [newContext] } := by
    rcases hm with h0 | h1
    · rw [setSealContext, if_pos h0]
      simp only [pure_bind, hsub, hpred]
      rfl
    · subst h1
      by_cases h0 : s.minerId = H256.zero
      · rw [setSealContext, if_pos h0]
        simp only [pure_bind, hsub, hpred]
        rfl
      · rw [setSealContext, if_neg h0, if_pos rfl]
        simp only [pure_bind, hsub, hpred]
        rfl
  rw [hstep]
  cases hx : s.sealContexts[insertPosition]? with
  | none => exact ⟨{ s with minerId, sealContexts := s.sealContexts ++ [newContext] }, rfl, rfl, rfl, rfl,
      .inr (.inr ⟨rfl, rfl⟩)⟩
  | some x =>
    by_cases hd : x.contextDigest = contextDigest
    · exact ⟨{ s with minerId }, by simp only [hd, if_true], rfl, rfl, rfl, .inl ⟨x, rfl, hd, rfl⟩⟩
    · exact ⟨{ s with minerId, sealContexts := s.sealContexts.insertIdx insertPosition newContext },
        by simp only [hd, if_false], rfl, rfl, rfl, .inr (.inl ⟨x, rfl, hd, rfl⟩)⟩

variable [Keccak]

/-- `SealInfo::unseal`: unseal the data of a seal, if it is sealed. -/
def «unseal» (s : SealInfo) (data : List UInt8) (index : Nat) : Except Error (List UInt8) :=
  if !s.isSealed index then .ok data
  else match s.getSealContextDigest index with
    | none => .error (.panic "cannot unseal non-sealed data")
    | some sealContext => ZgsSeal.unseal data s.minerId sealContext (s.globalSealSector index)

omit [Keccak] in
/-- Below `64`, `truncate` forgets the seals from the start of the reverted
seal's epoch on. -/
theorem truncate_of_lt {s : SealInfo} {revertedSealIndex : Nat}
    (h : s.truncatedSealIndex revertedSealIndex < sealsPerLoad) :
    s.truncate revertedSealIndex = { s with
      bitmap := fun i => s.bitmap i && decide (i < s.truncatedSealIndex revertedSealIndex),
      sealContexts := s.sealContexts.take (s.contextIndex revertedSealIndex) } := by
  simp [truncate, Nat.mod_eq_of_lt h]

/-- A seal that is not sealed, or sealed in a known context, unseals to as
many bytes, whole words of them. -/
theorem unseal_of_context {s : SealInfo} {index : Nat} {data : List UInt8}
    (hctx : s.isSealed index = true → (s.getSealContextDigest index).isSome) (h32 : data.length % 32 = 0) :
    ∃ out, s.unseal data index = .ok out ∧ out.length = data.length := by
  by_cases hs : s.isSealed index
  · obtain ⟨ctx, hc⟩ := Option.isSome_iff_exists.mp (hctx hs)
    refine ⟨ZgsSeal.unsealLoop (Keccak.keccak (ZgsSeal.computeFirstMaskSeed s.minerId ctx
      (s.globalSealSector index))) data, ?_, ZgsSeal.length_unsealLoop _ data⟩
    simp [«unseal», hs, hc, ZgsSeal.unseal, ZgsSeal.unsealWithMaskSeed, ZgsSeal.unsealWithMask, h32]
  · exact ⟨data, by simp [«unseal», hs], rfl⟩

end SealInfo

end ZgStorage
