import ZgStorage.LogStore.SealedRead

/-!
# The sealer

`Sealer` (`sealer.rs`) seals the seals the store hands it. For each it
fetches the context of the epoch of the flow that holds the seal's last
sector (`fetch_context`), seals the seal's data in that context, and answers
with the context's digest and the seal the epoch ends at. The flow
contract's epochs are a partition of the flow into intervals
(`EpochPartition`); a batch of load `c` keeps, for each of its sealed seals,
the context `contextOf c i` of its epoch, cut to the load.

* `ContextsWF`: the contexts a seal info keeps are sorted by their ends and
  are those of its sealed seals; then each sealed seal looks its own context
  up (`ContextsWF.looksUp`), since between two epochs the first that ends
  after a seal is its own (`epochOfSeal_eq_of_end`);
* `ContextsWF.submit`: `set_seal_context` keeps this when distinct epochs
  have distinct digests, which it assumes when it drops a context whose
  digest it already has;
* `submitSealResults_read`: from a complete batch, the sealer's answers for
  any of its seals, each at most once and in any order, are all taken, and
  every read of the batch then returns its data unsealed;
* `getUnsealedData_shared_digest`: when two epochs share a digest, a later
  context can land in front of a seal's own and the read of that seal is
  unsealed in the wrong context.
-/

namespace ZgStorage


/-- `EpochRangeWithContextDigest`: the sectors `[start, end)` of an epoch of
the flow, and the digest of its context. -/
structure EpochRangeWithContextDigest where
  start : Nat
  «end» : Nat
  digest : H256
  deriving DecidableEq

/-- The flow contract's epochs, as far as the flow the sealer knows goes:
each sector of it lies in its epoch, within the flow, and every sector of
an epoch has that epoch. -/
structure EpochPartition where
  flowLength : Nat
  epochAt : Nat → EpochRangeWithContextDigest
  mem_epochAt : ∀ x < flowLength, (epochAt x).start ≤ x ∧ x < (epochAt x).«end» ∧ (epochAt x).«end» ≤ flowLength
  epochAt_of_mem : ∀ x < flowLength, ∀ y, (epochAt x).start ≤ y → y < (epochAt x).«end» → epochAt y = epochAt x

namespace EpochPartition

variable (p : EpochPartition)

/-- Epochs that differ share no sector. -/
theorem disjoint {x y : Nat} (hx : x < p.flowLength) (hy : y < p.flowLength) (h : p.epochAt x ≠ p.epochAt y) :
    (p.epochAt x).«end» ≤ (p.epochAt y).start ∨ (p.epochAt y).«end» ≤ (p.epochAt x).start := by
  by_contra hc
  -- the later start would lie in both
  have hmx := p.mem_epochAt x hx
  have hmy := p.mem_epochAt y hy
  have hz := p.epochAt_of_mem x hx (max (p.epochAt x).start (p.epochAt y).start) (by omega) (by omega)
  have hz' := p.epochAt_of_mem y hy (max (p.epochAt x).start (p.epochAt y).start) (by omega) (by omega)
  exact h (hz.symm.trans hz')

/-- Distinct epochs have distinct digests. -/
def DistinctDigests : Prop :=
  ∀ x < p.flowLength, ∀ y < p.flowLength, (p.epochAt x).digest = (p.epochAt y).digest → p.epochAt x = p.epochAt y

/-- The flow reaches the last sector of seal `sealIndex`. -/
def Covers (sealIndex : Nat) : Prop := (sealIndex + 1) * sectorsPerSeal - 1 < p.flowLength

/-- The epoch of the last sector of seal `sealIndex` of the flow. -/
def epochOfSeal (sealIndex : Nat) : EpochRangeWithContextDigest :=
  p.epochAt ((sealIndex + 1) * sectorsPerSeal - 1)

/-- The context a seal info of load `c` keeps for its seal `i`: the digest
of the seal's epoch, and where the epoch ends, cut to the load. -/
def contextOf (c i : Nat) : SealContextInfo :=
  ⟨(p.epochOfSeal (c * sealsPerLoad + i)).digest,
    min ((p.epochOfSeal (c * sealsPerLoad + i)).«end» / sectorsPerSeal - c * sealsPerLoad) sealsPerLoad⟩

/-- A seal's epoch ends after the seal. -/
theorem lt_contextOf {c i : Nat} (hi : i < sealsPerLoad) (hc : p.Covers (c * sealsPerLoad + i)) :
    i < (p.contextOf c i).endSealIndex := by
  have h := p.mem_epochAt _ hc
  simp only [contextOf, epochOfSeal]
  unfold sealsPerLoad sectorsPerSeal at *
  omega

/-- Between the epochs of two seals of a load, the first that ends after
seal `i` and no later than its epoch is its epoch. -/
theorem epochOfSeal_eq_of_end {c i j : Nat} (hi : i < sealsPerLoad) (hj : j < sealsPerLoad)
    (hci : p.Covers (c * sealsPerLoad + i)) (hcj : p.Covers (c * sealsPerLoad + j))
    (h₁ : i < (p.contextOf c j).endSealIndex) (h₂ : (p.contextOf c j).endSealIndex ≤ (p.contextOf c i).endSealIndex) :
    p.epochOfSeal (c * sealsPerLoad + j) = p.epochOfSeal (c * sealsPerLoad + i) := by
  by_contra hne
  have hmi := p.mem_epochAt _ hci
  have hmj := p.mem_epochAt _ hcj
  have hd := p.disjoint hci hcj (Ne.symm hne)
  simp only [contextOf, epochOfSeal] at h₁ h₂ hd
  unfold sealsPerLoad sectorsPerSeal at *
  omega

end EpochPartition

namespace Sealer

/-- `Sealer::fetch_context`, with the flow contract's epochs up to
`last_context_flow_length` as a partition (the cache holds epochs the
contract gave, so it answers as the contract does): the digest of the epoch
of the seal's last sector and the seal the epoch ends at, or nothing while
the flow does not reach that sector. -/
def fetchContext (p : EpochPartition) (sealIndex : Nat) : Option (H256 × Nat) :=
  let lastEntry := (sealIndex + 1) * sectorsPerSeal - 1
  if p.flowLength ≤ lastEntry then none
  else
    let context := p.epochAt lastEntry
    some (context.digest, context.«end» / sectorsPerSeal)

variable [Keccak]

/-- The body of the loop of `seal_iteration`: the answer for a task of seal
`sealIndex`, its data sealed in the fetched context. -/
def sealAnswer (minerId : H256) (sealIndex version : Nat) (context : H256 × Nat)
    (data : Vector UInt8 (4 * 1024)) : SealAnswer :=
  ⟨sealIndex, version,
    ⟨(ZgsSeal.sealLoop (Keccak.keccak (ZgsSeal.computeFirstMaskSeed minerId context.1 (sealIndex * sectorsPerSeal)))
      data.toList).toArray, by simp [ZgsSeal.length_sealLoop]⟩,
    minerId, context.1, context.2⟩

/-- An answer as `seal_iteration` builds it for a seal of a batch that holds
`d`: in the context `fetch_context` gives, with the seal's bytes of `d`
sealed by `zgs_seal::seal` with the sealer's miner id. -/
structure Built (p : EpochPartition) (minerId : H256) (d : List UInt8) (a : SealAnswer) : Prop where
  context : fetchContext p a.sealIndex = some (a.sealContext, a.contextEndSeal)
  miner : a.minerId = minerId
  sealed : ZgsSeal.seal (Windows.window bytesPerSeal d (a.sealIndex % sealsPerLoad)) minerId a.sealContext
    (a.sealIndex * sectorsPerSeal) = .ok a.sealedData.toList

/-- `seal_iteration` builds its answers so. -/
theorem built_sealAnswer {p : EpochPartition} {minerId : H256} {d : List UInt8}
    {sealIndex version : Nat} {context : H256 × Nat}
    (hctx : fetchContext p sealIndex = some context)
    (hdata : (Windows.window bytesPerSeal d (sealIndex % sealsPerLoad)) = (data : Vector UInt8 (4 * 1024)).toList) :
    Built p minerId d (sealAnswer minerId sealIndex version context data) := by
  refine ⟨hctx, rfl, ?_⟩
  simp [sealAnswer, hdata, ZgsSeal.seal, ZgsSeal.sealWithMaskSeed, ZgsSeal.sealWithMask]

namespace Built

variable {p : EpochPartition} {minerId : H256} {d : List UInt8} {a : SealAnswer}

/-- The flow reaches the answer's seal, and its context is that of the
epoch of the seal's last sector. -/
theorem context_eq (h : Built p minerId d a) :
    p.Covers a.sealIndex ∧ a.sealContext = (p.epochOfSeal a.sealIndex).digest ∧
      a.contextEndSeal = (p.epochOfSeal a.sealIndex).«end» / sectorsPerSeal := by
  have hf := h.context
  simp only [fetchContext] at hf
  split at hf
  · cases hf
  · rename_i hcov
    simp only [Option.some.injEq, Prod.mk.injEq] at hf
    exact ⟨Nat.lt_of_not_le hcov, hf.1.symm, hf.2.symm⟩

/-- The answer's data is the seal's bytes of `d`, sealed. -/
theorem sealedData_eq (h : Built p minerId d a) (hd : d.length = bytesPerLoad) :
    a.sealedData.toList = ZgsSeal.sealLoop
      (Keccak.keccak (ZgsSeal.computeFirstMaskSeed minerId a.sealContext (a.sealIndex * sectorsPerSeal)))
      (Windows.window bytesPerSeal d (a.sealIndex % sealsPerLoad)) := by
  have h32 : (Windows.window bytesPerSeal d (a.sealIndex % sealsPerLoad)).length % 32 = 0 := by
    rw [length_window_seal hd (Nat.mod_lt _ (by decide))]
    decide
  have hs := h.sealed
  simp only [ZgsSeal.seal, ZgsSeal.sealWithMaskSeed, ZgsSeal.sealWithMask, h32, if_true] at hs
  exact (Except.ok.inj hs).symm

end Built

end Sealer

/-- The contexts a seal info of load `c` keeps, against the epochs: sorted
by their ends, each the context of a sealed seal, and the context of each
sealed seal among them. -/
structure ContextsWF (p : EpochPartition) (c : Nat) (s : SealInfo) : Prop where
  covers : ∀ i < sealsPerLoad, s.isSealed i = true → p.Covers (c * sealsPerLoad + i)
  sorted : s.sealContexts.Pairwise fun x y => x.endSealIndex < y.endSealIndex
  mem_of_sealed : ∀ i < sealsPerLoad, s.isSealed i = true → p.contextOf c i ∈ s.sealContexts
  of_mem : ∀ x ∈ s.sealContexts, ∃ i < sealsPerLoad, s.isSealed i = true ∧ x = p.contextOf c i

namespace ContextsWF

variable {p : EpochPartition} {c : Nat} {s : SealInfo}

/-- Two seals of a load whose epochs agree keep the same context. -/
theorem contextOf_congr {i j : Nat} (h : p.epochOfSeal (c * sealsPerLoad + j) = p.epochOfSeal (c * sealsPerLoad + i)) :
    p.contextOf c j = p.contextOf c i := by
  simp only [EpochPartition.contextOf, h]

/-- Each sealed seal looks its own context up: the first context that ends
after it is no later than its own, so it is its own. -/
theorem looksUp (h : ContextsWF p c s) : LooksUp s fun i => (p.contextOf c i).contextDigest := by
  intro i hi hs
  obtain ⟨y, hy, hyi⟩ := List.mem_iff_getElem.mp (h.mem_of_sealed i hi hs)
  obtain ⟨hle, hlt⟩ := SealInfo.contextIndex_lt_iff h.sorted i hi
  have hend := p.lt_contextOf hi (h.covers i hi hs)
  -- the seal's own context is not before the one it looks up
  have hy' : s.contextIndex i ≤ y := by
    by_contra hc
    have := (hlt y hy).mp (by omega)
    rw [hyi] at this
    omega
  have hci : s.contextIndex i < s.sealContexts.length := by omega
  obtain ⟨j, hj, hsj, hxj⟩ := h.of_mem _ (List.getElem_mem hci)
  have h₁ : i < (p.contextOf c j).endSealIndex := by
    rw [← hxj]
    exact Nat.lt_of_not_le fun hc => Nat.lt_irrefl _ ((hlt _ hci).mpr hc)
  have h₂ : (p.contextOf c j).endSealIndex ≤ (p.contextOf c i).endSealIndex := by
    rw [← hxj, ← hyi]
    rcases Nat.eq_or_lt_of_le hy' with heq | hlt'
    · simp only [heq, le_refl]
    · exact Nat.le_of_lt (List.pairwise_iff_getElem.mp h.sorted _ _ hci hy hlt')
  have hij := contextOf_congr (p.epochOfSeal_eq_of_end hi hj (h.covers i hi hs) (h.covers j hj hsj) h₁ h₂)
  simp only [SealInfo.getSealContextDigest, List.getElem?_eq_getElem hci, hxj, hij, Option.map_some]

/-- Marking seal `i` sealed, with a new list of contexts that is sorted,
holds the old ones and the seal's own and nothing else, keeps the contexts
well formed. -/
theorem markSealed (h : ContextsWF p c s) {s' : SealInfo} {i : Nat} (hi : i < sealsPerLoad)
    (hcov : p.Covers (c * sealsPerLoad + i)) (hbit : s'.bitmap = s.bitmap)
    (hsorted : s'.sealContexts.Pairwise fun x y => x.endSealIndex < y.endSealIndex)
    (hold : ∀ x ∈ s.sealContexts, x ∈ s'.sealContexts) (hnew : p.contextOf c i ∈ s'.sealContexts)
    (honly : ∀ x ∈ s'.sealContexts, x ∈ s.sealContexts ∨ x = p.contextOf c i) :
    ContextsWF p c (s'.markSealed i) := by
  have hsealed : ∀ j, (s'.markSealed i).isSealed j = (j == i || s.isSealed j) := by
    intro j
    rw [SealInfo.isSealed_markSealed, SealInfo.isSealed, hbit]
    rfl
  refine ⟨fun j hj hs => ?_, hsorted, fun j hj hs => ?_, fun x hx => ?_⟩
  · rw [hsealed] at hs
    by_cases hji : j = i
    · rw [hji]
      exact hcov
    · rw [beq_false_of_ne hji, Bool.false_or] at hs
      exact h.covers j hj hs
  · rw [hsealed] at hs
    by_cases hji : j = i
    · rw [hji]
      exact hnew
    · rw [beq_false_of_ne hji, Bool.false_or] at hs
      exact hold _ (h.mem_of_sealed j hj hs)
  · rcases honly x hx with hx | rfl
    · obtain ⟨j, hj, hs, rfl⟩ := h.of_mem x hx
      exact ⟨j, hj, by rw [hsealed, hs, Bool.or_true], rfl⟩
    · exact ⟨i, hi, by rw [hsealed]; simp, rfl⟩

/-- `set_seal_context` with the context of a seal of the load, and marking
the seal sealed, keep the contexts well formed when distinct epochs have
distinct digests: a context at the insert position with the seal's digest
is then the seal's own. -/
theorem submit (hp : p.DistinctDigests) (h : ContextsWF p c s) (hload : s.loadIndex = c) {i : Nat}
    (hi : i < sealsPerLoad) (hcov : p.Covers (c * sealsPerLoad + i)) {s' : SealInfo} {minerId : H256} (hm : s.minerId = H256.zero ∨ s.minerId = minerId)
    (hset : s.setSealContext (p.contextOf c i).contextDigest
      ((p.epochOfSeal (c * sealsPerLoad + i)).«end» / sectorsPerSeal) minerId = .ok s') :
    ContextsWF p c (s'.markSealed i) := by
  have hend := p.lt_contextOf hi hcov
  have he : s.loadIndex * sealsPerLoad < (p.epochOfSeal (c * sealsPerLoad + i)).«end» / sectorsPerSeal := by
    rw [hload]
    simp only [EpochPartition.contextOf] at hend
    omega
  obtain ⟨s'', hs'', hbit, -, -, hcases⟩ := @SealInfo.setSealContext_ok s (p.contextOf c i).contextDigest _ _ hm he
  obtain rfl : s'' = s' := Except.ok.inj (hs''.symm.trans hset)
  have hn : (⟨(p.contextOf c i).contextDigest, min ((p.epochOfSeal (c * sealsPerLoad + i)).«end» / sectorsPerSeal -
      s.loadIndex * sealsPerLoad) sealsPerLoad⟩ : SealContextInfo) = p.contextOf c i := by
    rw [hload]
    rfl
  rw [hn] at hcases
  -- the insert position: the contexts before it end before the seal's epoch
  have hlast : (p.contextOf c i).endSealIndex - 1 < sealsPerLoad :=
    Nat.lt_of_lt_of_le (Nat.sub_lt (Nat.lt_of_le_of_lt (Nat.zero_le i) hend) Nat.one_pos) (Nat.min_le_right _ _)
  obtain ⟨hle, hlt⟩ := SealInfo.contextIndex_lt_iff h.sorted ((p.contextOf c i).endSealIndex - 1) hlast
  generalize s.contextIndex ((p.contextOf c i).endSealIndex - 1) = pos at hle hlt hcases
  have hpos : ∀ (x : SealContextInfo), s.sealContexts[pos]? = some x →
      ∃ j < sealsPerLoad, p.Covers (c * sealsPerLoad + j) ∧ x = p.contextOf c j ∧ i < (p.contextOf c j).endSealIndex ∧
        (p.contextOf c i).endSealIndex ≤ (p.contextOf c j).endSealIndex := by
    intro x hx
    obtain ⟨hp', hx'⟩ := List.getElem?_eq_some_iff.mp hx
    obtain ⟨j, hj, hsj, rfl⟩ := h.of_mem x (hx' ▸ List.getElem_mem hp')
    have := (hlt pos hp').not.mp (Nat.lt_irrefl _)
    rw [hx'] at this
    exact ⟨j, hj, h.covers j hj hsj, rfl, by omega, by omega⟩
  rcases hcases with ⟨x, hx, hd, hctx⟩ | ⟨x, hx, hd, hctx⟩ | ⟨hx, hctx⟩
  · -- the context there has the seal's digest: by distinct digests it is the seal's own
    obtain ⟨j, hj, hcj, rfl, -, -⟩ := hpos x hx
    have hij := contextOf_congr (c := c) (hp _ hcj _ hcov hd)
    refine h.markSealed hi hcov hbit (by rw [hctx]; exact h.sorted) (fun y hy => by rw [hctx]; exact hy) ?_
      (fun y hy => .inl (by rwa [hctx] at hy))
    rw [hctx, ← hij]
    exact List.mem_of_getElem? hx
  · -- another epoch's context: the seal's own goes in before it
    obtain ⟨j, hj, hcj, rfl, h₁, h₂⟩ := hpos x hx
    have hlt' : (p.contextOf c i).endSealIndex < (p.contextOf c j).endSealIndex := by
      rcases Nat.eq_or_lt_of_le h₂ with heq | hlt'
      · exact absurd (congrArg SealContextInfo.contextDigest
          (contextOf_congr (p.epochOfSeal_eq_of_end hi hj hcov hcj h₁ heq.symm.le))) hd
      · exact hlt'
    obtain ⟨hp', hx'⟩ := List.getElem?_eq_some_iff.mp hx
    refine h.markSealed hi hcov hbit ?_ ?_ ?_ ?_
    · rw [hctx]
      refine Runs.pairwise_insertIdx hle h.sorted (fun k hk hkp => ?_) (fun k hk hkp => ?_)
      · have := (hlt k hk).mp hkp
        omega
      · rcases Nat.eq_or_lt_of_le hkp with rfl | hkp
        · rw [hx']
          exact hlt'
        · rw [← hx'] at hlt'
          exact Nat.lt_trans hlt' (List.pairwise_iff_getElem.mp h.sorted _ _ hp' hk hkp)
    · intro y hy
      rw [hctx, List.mem_insertIdx hle]
      exact .inr hy
    · rw [hctx, List.mem_insertIdx hle]
      exact .inl rfl
    · intro y hy
      rw [hctx, List.mem_insertIdx hle] at hy
      exact hy.symm
  · -- every context ends before the seal's epoch: its own goes last
    have hall : pos = s.sealContexts.length := by
      rw [List.getElem?_eq_none_iff] at hx
      omega
    refine h.markSealed hi hcov hbit ?_ ?_ ?_ ?_
    · rw [hctx, List.pairwise_append]
      refine ⟨h.sorted, List.pairwise_singleton _ _, fun y hy z hz => ?_⟩
      obtain ⟨k, hk, rfl⟩ := List.mem_iff_getElem.mp hy
      rw [List.mem_singleton.mp hz]
      have := (hlt k hk).mp (by omega)
      omega
    · intro y hy
      rw [hctx]
      exact List.mem_append_left _ hy
    · rw [hctx]
      exact List.mem_append_right _ (List.mem_singleton_self _)
    · intro y hy
      rw [hctx, List.mem_append, List.mem_singleton] at hy
      exact hy

end ContextsWF

section Batch

variable [Keccak]

/-- What a batch of load `c` holds while the sealer's answers come in: the
bytes `d` of the load with each sealed seal sealed in its epoch's context,
with the sealer's miner id, which the seal info holds once a seal is
sealed. -/
structure BatchSealed (p : EpochPartition) (minerId : H256) (c : Nat) (d : List UInt8) (b : EntryBatch) :
    Prop where
  loadIndex : b.seal.loadIndex = c
  miner : b.seal.minerId = minerId ∨ (b.seal.minerId = H256.zero ∧ ∀ i, b.seal.isSealed i = false)
  image : ∃ w, b.data = .complete w ∧ SealedImage b.seal (fun i => (p.contextOf c i).contextDigest) d w

namespace BatchSealed

variable {p : EpochPartition} {minerId : H256} {c : Nat} {d : List UInt8}

/-- A complete batch with no seal sealed. -/
theorem new (hd : d.length = bytesPerLoad) : BatchSealed p minerId c d ⟨SealInfo.new c, .complete d⟩ := by
  refine ⟨rfl, .inr ⟨rfl, fun _ => rfl⟩, d, rfl, hd, hd, fun i _ => ?_⟩
  rfl

/-- An answer of the sealer for a seal of the batch that is not sealed yet
is taken: the seal info goes through `set_seal_context` and marks the seal,
and the batch holds it sealed. -/
theorem submit {b : EntryBatch} {a : SealAnswer} (h : BatchSealed p minerId c d b) (ha : Sealer.Built p minerId d a)
    (hidx : a.sealIndex / sealsPerLoad = c) (hfresh : b.seal.isSealed (a.sealIndex % sealsPerLoad) = false) :
    ∃ s' b', b.seal.setSealContext a.sealContext a.contextEndSeal a.minerId = .ok s' ∧
      b.submitSealResult a = .ok b' ∧ b'.seal = s'.markSealed (a.sealIndex % sealsPerLoad) ∧
      s'.bitmap = b.seal.bitmap ∧ BatchSealed p minerId c d b' := by
  obtain ⟨w, hw, himg⟩ := h.image
  have hi : a.sealIndex % sealsPerLoad < sealsPerLoad := Nat.mod_lt _ (by decide)
  have hg : a.sealIndex = c * sealsPerLoad + a.sealIndex % sealsPerLoad := by
    rw [← hidx, Nat.mul_comm]
    exact (Nat.div_add_mod _ _).symm
  obtain ⟨hcov, hctx, hend⟩ := ha.context_eq
  have hm : b.seal.minerId = H256.zero ∨ b.seal.minerId = a.minerId := by
    rw [ha.miner]
    rcases h.miner with hm | hm
    · exact .inr hm
    · exact .inl hm.1
  have he : b.seal.loadIndex * sealsPerLoad < a.contextEndSeal := by
    have := p.lt_contextOf hi (c := c) (hg ▸ hcov)
    simp only [EpochPartition.contextOf] at this
    rw [h.loadIndex, hend, hg]
    omega
  obtain ⟨s', hs', hbit, hload, hminer, -⟩ := SealInfo.setSealContext_ok hm he
  have hsub := EntryBatch.submitSealResult_complete (s := b.seal) himg.length_image hfresh
    (hidx.trans h.loadIndex.symm) hs'
  rw [show (⟨b.seal, .complete w⟩ : EntryBatch) = b by rw [← hw]] at hsub
  refine ⟨s', _, hs', hsub, rfl, hbit, h.loadIndex ▸ hload, .inl (hminer.trans ha.miner), _, rfl, ?_⟩
  -- the answer's data is the seal of `d` in the seal's own context
  have hdata : a.sealedData.toList = ZgsSeal.sealLoop
      (s'.firstMask (p.contextOf c (a.sealIndex % sealsPerLoad)).contextDigest (a.sealIndex % sealsPerLoad))
      (Windows.window bytesPerSeal d (a.sealIndex % sealsPerLoad)) := by
    rw [ha.sealedData_eq himg.length_data]
    simp only [SealInfo.firstMask, SealInfo.globalSealSector, hminer, ha.miner, hload, h.loadIndex, hctx,
      EpochPartition.contextOf, ← hg]
    congr 3
    unfold sealsPerLoad sectorsPerLoad sectorsPerSeal at *
    omega
  rw [hdata]
  refine himg.write hi hbit hload fun j hj => ?_
  rcases h.miner with hm' | hm'
  · rw [hminer, ha.miner, hm']
  · rw [hm'.2 j] at hj
    cases hj

end BatchSealed

variable {p : EpochPartition} {minerId : H256} {c : Nat} {d : List UInt8}

/-- The run: the sealer's answers for seals of the batch that are not sealed
yet, each seal at most once, are all taken in turn, and the batch goes on
holding them sealed, with well-formed contexts. -/
theorem foldlM_submitSealResult (hp : p.DistinctDigests) :
    ∀ (answers : List SealAnswer) (b : EntryBatch), BatchSealed p minerId c d b → ContextsWF p c b.seal →
      (answers.map SealAnswer.sealIndex).Nodup →
      (∀ a ∈ answers, a.sealIndex / sealsPerLoad = c ∧ Sealer.Built p minerId d a ∧
        b.seal.isSealed (a.sealIndex % sealsPerLoad) = false) →
      ∃ b', answers.foldlM EntryBatch.submitSealResult b = .ok b' ∧ BatchSealed p minerId c d b' ∧
        ContextsWF p c b'.seal
  | [], b, h, hc, _, _ => ⟨b, rfl, h, hc⟩
  | a :: rest, b, h, hc, hnodup, hall => by
    obtain ⟨hidx, ha, hfresh⟩ := hall a List.mem_cons_self
    obtain ⟨s', b', hs', hsub, hseal, hbit, h'⟩ := h.submit ha hidx hfresh
    have hi : a.sealIndex % sealsPerLoad < sealsPerLoad := Nat.mod_lt _ (by decide)
    have hg : a.sealIndex = c * sealsPerLoad + a.sealIndex % sealsPerLoad := by
      rw [← hidx, Nat.mul_comm]
      exact (Nat.div_add_mod _ _).symm
    obtain ⟨hcov, hctx, hend⟩ := ha.context_eq
    -- the seal's context as `ContextsWF.submit` takes it
    have hc' : ContextsWF p c b'.seal := by
      have hm : b.seal.minerId = H256.zero ∨ b.seal.minerId = minerId := by
        rcases h.miner with hm | hm
        · exact .inr hm
        · exact .inl hm.1
      rw [hctx, hend, ha.miner, hg] at hs'
      rw [hseal]
      exact hc.submit hp h.loadIndex hi (hg ▸ hcov) hm hs'
    obtain ⟨hnot, hnodup'⟩ := List.nodup_cons.mp (List.map_cons ▸ hnodup)
    -- the other answers' seals are still not sealed
    have hall' : ∀ a' ∈ rest, a'.sealIndex / sealsPerLoad = c ∧ Sealer.Built p minerId d a' ∧
        b'.seal.isSealed (a'.sealIndex % sealsPerLoad) = false := by
      intro a' ha'
      obtain ⟨hidx', hb', hfresh'⟩ := hall a' (List.mem_cons_of_mem _ ha')
      have hne : a'.sealIndex % sealsPerLoad ≠ a.sealIndex % sealsPerLoad := by
        intro heq
        apply hnot
        rw [List.mem_map]
        refine ⟨a', ha', ?_⟩
        rw [← Nat.div_add_mod a'.sealIndex sealsPerLoad, ← Nat.div_add_mod a.sealIndex sealsPerLoad, hidx, hidx', heq]
      refine ⟨hidx', hb', ?_⟩
      rw [hseal, SealInfo.isSealed_markSealed, beq_false_of_ne hne, Bool.false_or, SealInfo.isSealed, hbit]
      exact hfresh'
    obtain ⟨b'', hrun, h'', hc''⟩ := foldlM_submitSealResult hp rest b' h' hc' hnodup' hall'
    refine ⟨b'', ?_, h'', hc''⟩
    rw [List.foldlM_cons, hsub]
    exact hrun

/-- Sealing never changes what a reader of a batch sees, provided distinct
epochs have distinct digests: from a complete batch holding `d`, the
sealer's answers for seals of the batch, each seal at most once and in any
order, are all taken, and then every read returns the sectors of `d` it
asks for, and `to_unsealed_data` returns `d`. -/
theorem submitSealResults_read (hp : p.DistinctDigests) (hd : d.length = bytesPerLoad)
    (answers : List SealAnswer) (hnodup : (answers.map SealAnswer.sealIndex).Nodup)
    (hall : ∀ a ∈ answers, a.sealIndex / sealsPerLoad = c ∧ Sealer.Built p minerId d a) :
    ∃ b, answers.foldlM EntryBatch.submitSealResult ⟨SealInfo.new c, .complete d⟩ = .ok b ∧
      (∀ startSector lengthSector, 0 < lengthSector → startSector + lengthSector ≤ sectorsPerLoad →
        b.getUnsealedData startSector lengthSector =
          .ok (some ((d.drop (startSector * bytesPerSector)).take (lengthSector * bytesPerSector)))) ∧
      b.toUnsealedData = .ok (some [d]) := by
  have hc : ContextsWF p c (SealInfo.new c) :=
    ⟨fun _ _ h => absurd h Bool.false_ne_true, List.Pairwise.nil, fun _ _ h => absurd h Bool.false_ne_true,
      fun _ h => absurd h List.not_mem_nil⟩
  obtain ⟨b, hrun, hb, hcb⟩ := foldlM_submitSealResult hp answers _ (BatchSealed.new hd) hc hnodup
    fun a ha => ⟨(hall a ha).1, (hall a ha).2, rfl⟩
  obtain ⟨w, hw, himg⟩ := hb.image
  have hb' : b = ⟨b.seal, .complete w⟩ := by rw [← hw]
  refine ⟨b, hrun, fun startSector lengthSector hn hend => ?_, ?_⟩
  · rw [hb']
    exact himg.getUnsealedData_eq hcb.looksUp hn hend
  · rw [hb']
    exact himg.toUnsealedData_eq hcb.looksUp

end Batch

/-- A digest for the examples. -/
def digestA : H256 := Vector.replicate 32 1

/-- Another digest for the examples. -/
def digestB : H256 := Vector.replicate 32 2

/-- A load of zero bytes. -/
def zeroLoad : List UInt8 := List.replicate bytesPerLoad 0

/-- A seal of zero bytes. -/
def zeroSeal : Vector UInt8 (4 * 1024) := Vector.replicate _ 0

theorem window_zeroLoad (i : Nat) (hi : i < sealsPerLoad) : Windows.window bytesPerSeal zeroLoad i = zeroSeal.toList := by
  have : i * bytesPerSeal + bytesPerSeal ≤ bytesPerLoad := by
    unfold sealsPerLoad bytesPerSeal bytesPerLoad at *
    omega
  simp only [Windows.window, zeroLoad, zeroSeal, List.drop_replicate, List.take_replicate, Vector.toList_replicate]
  congr 1
  unfold bytesPerSeal bytesPerLoad at *
  omega

/-- The flow of one load, all in one epoch. -/
def oneEpoch : EpochPartition where
  flowLength := sectorsPerLoad
  epochAt _ := ⟨0, sectorsPerLoad, digestA⟩
  mem_epochAt x hx := ⟨Nat.zero_le x, hx, le_refl _⟩
  epochAt_of_mem _ _ _ _ _ := rfl

/-- The sealer's answers for seals `5` and `2` of the first load in the one
epoch, taken in that order. -/
def oneEpochAnswers : List SealAnswer :=
  [Sealer.sealAnswer H256.zero 5 0 (digestA, 64) zeroSeal, Sealer.sealAnswer H256.zero 2 0 (digestA, 64) zeroSeal]

theorem submitSealResults_read_oneEpoch :
    oneEpoch.DistinctDigests ∧ zeroLoad.length = bytesPerLoad ∧ (oneEpochAnswers.map SealAnswer.sealIndex).Nodup ∧
      (∀ a ∈ oneEpochAnswers, a.sealIndex / sealsPerLoad = 0 ∧ Sealer.Built oneEpoch H256.zero zeroLoad a) ∧
      ∃ b, oneEpochAnswers.foldlM EntryBatch.submitSealResult ⟨SealInfo.new 0, .complete zeroLoad⟩ = .ok b ∧
        (∀ startSector lengthSector, 0 < lengthSector → startSector + lengthSector ≤ sectorsPerLoad →
          b.getUnsealedData startSector lengthSector =
            .ok (some ((zeroLoad.drop (startSector * bytesPerSector)).take (lengthSector * bytesPerSector)))) ∧
        b.toUnsealedData = .ok (some [zeroLoad]) := by
  have hp : oneEpoch.DistinctDigests := fun _ _ _ _ _ => rfl
  have hd : zeroLoad.length = bytesPerLoad := List.length_replicate
  have hnodup : (oneEpochAnswers.map SealAnswer.sealIndex).Nodup := by decide
  have hall : ∀ a ∈ oneEpochAnswers, a.sealIndex / sealsPerLoad = 0 ∧ Sealer.Built oneEpoch H256.zero zeroLoad a := by
    intro a ha
    simp only [oneEpochAnswers, List.mem_cons, List.not_mem_nil, or_false] at ha
    rcases ha with rfl | rfl
    · exact ⟨rfl, Sealer.built_sealAnswer (by decide) (window_zeroLoad 5 (by decide))⟩
    · exact ⟨rfl, Sealer.built_sealAnswer (by decide) (window_zeroLoad 2 (by decide))⟩
  exact ⟨hp, hd, hnodup, hall, submitSealResults_read hp hd oneEpochAnswers hnodup hall⟩

/-- Three epochs of the first load, `[0, 80)`, `[80, 112)` and `[112, 160)`:
the first and the last share a digest. -/
def sharedDigest : EpochPartition where
  flowLength := 160
  epochAt x := if x < 80 then ⟨0, 80, digestA⟩ else if x < 112 then ⟨80, 112, digestB⟩ else ⟨112, 160, digestA⟩
  mem_epochAt x hx := by
    split_ifs <;> simp only <;> omega
  epochAt_of_mem x hx y h₁ h₂ := by
    split_ifs at h₁ h₂ with hx₁ hx₂ <;> simp only at h₁ h₂ <;> split_ifs <;> first | rfl | omega

/-- The sealer's answers for seals `8`, `3` and `5` of the first load, in
that order: seal `8` in the last epoch, whose context ends at seal `10`;
seal `3` in the first, ending at seal `5`; seal `5` in the second, ending at
seal `7`. -/
def sharedDigestAnswers : List SealAnswer :=
  [Sealer.sealAnswer H256.zero 8 0 (digestA, 10) zeroSeal, Sealer.sealAnswer H256.zero 3 0 (digestA, 5) zeroSeal,
    Sealer.sealAnswer H256.zero 5 0 (digestB, 7) zeroSeal]

theorem sharedDigestAnswers_built :
    ∀ a ∈ sharedDigestAnswers, a.sealIndex / sealsPerLoad = 0 ∧ Sealer.Built sharedDigest H256.zero zeroLoad a := by
  intro a ha
  simp only [sharedDigestAnswers, List.mem_cons, List.not_mem_nil, or_false] at ha
  rcases ha with rfl | rfl | rfl
  · exact ⟨rfl, Sealer.built_sealAnswer (by decide) (window_zeroLoad 8 (by decide))⟩
  · exact ⟨rfl, Sealer.built_sealAnswer (by decide) (window_zeroLoad 3 (by decide))⟩
  · exact ⟨rfl, Sealer.built_sealAnswer (by decide) (window_zeroLoad 5 (by decide))⟩

/-- The seal info of the first load once seal `8` is answered, before it is
marked: the context of the last epoch. -/
def sharedDigestInfo : SealInfo := ⟨fun _ => false, 0, H256.zero, [⟨digestA, 10⟩]⟩

/-- With two epochs sharing a digest, seal `3`'s context is dropped as
already there (the context of seal `8`), and the context of seal `5` then
goes in front of it: the read of seal `3` unseals it in seal `5`'s context,
and its first word comes out masked twice. -/
theorem getUnsealedData_shared_digest :
    (sharedDigestAnswers.map SealAnswer.sealIndex).Nodup ∧
      (∀ a ∈ sharedDigestAnswers, a.sealIndex / sealsPerLoad = 0 ∧ Sealer.Built sharedDigest H256.zero zeroLoad a) ∧
      ∃ b, sharedDigestAnswers.foldlM EntryBatch.submitSealResult ⟨SealInfo.new 0, .complete zeroLoad⟩ = .ok b ∧
        b.getUnsealedData 48 16 ≠ .ok (some ((zeroLoad.drop (48 * bytesPerSector)).take (16 * bytesPerSector))) := by
  have hd : zeroLoad.length = bytesPerLoad := List.length_replicate
  have hall := sharedDigestAnswers_built
  have h₀ : BatchSealed sharedDigest H256.zero 0 zeroLoad ⟨SealInfo.new 0, .complete zeroLoad⟩ := BatchSealed.new hd
  -- seal 8: its context is pushed
  obtain ⟨s₁, b₁, hs₁, hsub₁, hseal₁, -, h₁⟩ := h₀.submit (hall (Sealer.sealAnswer H256.zero 8 0 (digestA, 10) zeroSeal) (by simp [sharedDigestAnswers])).2
    rfl rfl
  obtain rfl : s₁ = sharedDigestInfo := Except.ok.inj (hs₁.symm.trans rfl)
  -- seal 3: the context there has its digest, so its own is dropped
  obtain ⟨s₂, b₂, hs₂, hsub₂, hseal₂, -, h₂⟩ := h₁.submit (hall (Sealer.sealAnswer H256.zero 3 0 (digestA, 5) zeroSeal) (by simp [sharedDigestAnswers])).2 rfl
    (by rw [hseal₁]; rfl)
  rw [hseal₁] at hs₂
  obtain rfl : s₂ = sharedDigestInfo.markSealed 8 := Except.ok.inj (hs₂.symm.trans rfl)
  -- seal 5: another digest, so its context goes in front
  obtain ⟨s₃, b₃, hs₃, hsub₃, hseal₃, -, h₃⟩ := h₂.submit (hall (Sealer.sealAnswer H256.zero 5 0 (digestB, 7) zeroSeal) (by simp [sharedDigestAnswers])).2 rfl
    (by rw [hseal₂]; rfl)
  rw [hseal₂] at hs₃
  obtain rfl : s₃ = { (sharedDigestInfo.markSealed 8).markSealed 3 with
      sealContexts := [⟨digestB, 7⟩, ⟨digestA, 10⟩] } := Except.ok.inj (hs₃.symm.trans rfl)
  refine ⟨by decide, hall, b₃, ?_, ?_⟩
  · simp only [sharedDigestAnswers, List.foldlM_cons, List.foldlM_nil, hsub₁, hsub₂, hsub₃, Except.ok_bind]
    rfl
  · obtain ⟨w, hw, himg⟩ := h₃.image
    have hb : b₃ = ⟨b₃.seal, .complete w⟩ := by rw [← hw]
    -- seal 3 is sealed in the first epoch's context but looks up the second's
    have hsealed : b₃.seal.isSealed 3 = true := by rw [hseal₃]; rfl
    have hlookup : b₃.seal.getSealContextDigest 3 = some digestB := by rw [hseal₃]; rfl
    have hmaskA : b₃.seal.firstMask (sharedDigest.contextOf 0 3).contextDigest 3 =
        Keccak.keccak (ZgsSeal.computeFirstMaskSeed H256.zero digestA 48) := by rw [hseal₃]; rfl
    have hmaskB : Keccak.keccak (ZgsSeal.computeFirstMaskSeed b₃.seal.minerId digestB (b₃.seal.globalSealSector 3)) =
        Keccak.keccak (ZgsSeal.computeFirstMaskSeed H256.zero digestB 48) := by rw [hseal₃]; rfl
    have hwin := himg.window_eq 3 (by decide)
    rw [hsealed, if_pos rfl, hmaskA, window_zeroLoad 3 (by decide)] at hwin
    have hlen : (Windows.window bytesPerSeal w 3).length % 32 = 0 := by
      rw [length_window_seal himg.length_image (by decide)]
      decide
    have hread := getUnsealedData_seal (s := b₃.seal) himg.length_image (k := 3) (by decide)
    rw [← hb] at hread
    rw [show (48 : Nat) = 3 * sectorsPerSeal from rfl, show (16 : Nat) = sectorsPerSeal from rfl, hread]
    simp only [SealInfo.unseal, hsealed, hlookup, Bool.not_true, Bool.false_eq_true, if_false, ZgsSeal.unseal,
      ZgsSeal.unsealWithMaskSeed, ZgsSeal.unsealWithMask, hlen, if_true, hmaskB]
    intro heq
    have hdata : ZgsSeal.unsealLoop (Keccak.keccak (ZgsSeal.computeFirstMaskSeed H256.zero digestB 48))
        (Windows.window bytesPerSeal w 3) = zeroSeal.toList := by
      have h' : ZgsSeal.unsealLoop (Keccak.keccak (ZgsSeal.computeFirstMaskSeed H256.zero digestB 48))
          (Windows.window bytesPerSeal w 3) =
          (zeroLoad.drop (3 * sectorsPerSeal * bytesPerSector)).take (sectorsPerSeal * bytesPerSector) := by
        simpa [Except.map] using heq
      rw [h', ← window_zeroLoad 3 (by decide)]
      rfl
    -- the first word is masked by two different masks
    have hfirst := congrArg (List.take 32) hdata
    rw [ZgsSeal.take_unsealLoop, hwin, (ZgsSeal.take_drop_sealLoop _ _).1] at hfirst
    simp only [zeroSeal, Vector.toList_replicate, List.take_replicate] at hfirst
    exact absurd hfirst (by decide +kernel)
end ZgStorage
