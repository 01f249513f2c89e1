import Mathlib
import ZgStorage.LogStore.BatchSsz
import ZgStorage.LogStore.ChunkMap

/-!
# The batches the operations reach, and their database form

A batch starts as `EntryBatch::new` and changes by `insert_data`,
`set_subtree_list`, `submit_seal_result` and `truncate`. Every batch they
reach is `WellFormed`: a complete batch holds the whole load, an incomplete
one well-formed partial batches that do not fill it and subtrees whose
fields fit their `usize`, and the seal information marks only the load's
seals, with contexts that end within the load.

Such a batch is `Encodable`, and so reads back from its bytes, unless it
holds too many subtrees or seal contexts for the offsets after them to fit
four bytes: neither is bounded, since `set_subtree_list` keeps every subtree
it is given that the data does not cover, repeated ones included.

## Main results

* `EntryBatch.WellFormed.run`: every batch a run reaches is well formed.
* `runBatchOps_fromSszBytes`: such a batch with at most `89478485`
  subtrees and `126322565` seal contexts reads back.
* `runBatchOps_manySubtrees`: a batch with `89478486` subtrees that does
  not read back.
-/

namespace ZgStorage

namespace EntryBatchData

/-- The test of `set_subtree_list` on one subtree: none of its sectors is
known, and its root is not zero. The subtree's fields are `usize`s, whose
arithmetic wraps, and the shift takes its amount modulo `64`. -/
def keepSubtree (self : EntryBatchData) (subtree : UInt64 × UInt64 × H256) : Except Error Bool := do
  let startByte := subtree.1 * bytesPerSector.toUInt64
  let lengthByte := (1 <<< (subtree.2.1 - 1)) * bytesPerSector.toUInt64
  let known ← self.get startByte.toNat lengthByte.toNat
  -- The first sector is regarded as known.
  pure (known.isNone && subtree.2.2 != H256.zero)

/-- The subtrees of the list that `set_subtree_list` keeps, in order. -/
def keptSubtrees (self : EntryBatchData) : List (UInt64 × UInt64 × H256) → Except Error (List Subtree)
  | [] => pure []
  | subtree :: rest => do
    let keep ← self.keepSubtree subtree
    let kept ← self.keptSubtrees rest
    pure (if keep then ⟨subtree.1.toNat, subtree.2.1.toNat, subtree.2.2⟩ :: kept else kept)

/-- `EntryBatchData::set_subtree_list`: a complete batch stores none (the
code logs an error when some are left). -/
def setSubtreeList (self : EntryBatchData) (subtreeList : List (UInt64 × UInt64 × H256)) :
    Except Error EntryBatchData := do
  let subtreeList ← self.keptSubtrees subtreeList
  match self with
  | .complete data => pure (.complete data)
  | .incomplete x => pure (.incomplete { x with subtrees := subtreeList })

/-- `EntryBatchData::get_subtree_list`. -/
def getSubtreeList : EntryBatchData → List Subtree
  | .complete _ => []
  | .incomplete x => x.subtrees

/-! ### What `insert_data` does to the subtrees -/

/-- The data with its subtrees replaced, when it is incomplete. -/
def withSubtrees : EntryBatchData → List Subtree → EntryBatchData
  | .complete data, _ => .complete data
  | .incomplete x, ts => .incomplete { x with subtrees := ts }

/-- The loop over the subtrees answers an index from where it starts on. -/
theorem le_of_firstSubtreeAfter {updatedStart updatedEnd : Nat} :
    ∀ {idx i : Nat} {ts : List Subtree}, firstSubtreeAfter updatedStart updatedEnd idx ts = .ok (some i) → idx ≤ i
  | _, _, [], h => by cases h
  | idx, i, t :: ts, h => by
    unfold firstSubtreeAfter at h
    split_ifs at h
    · cases h
      exact Nat.le_refl _
    · exact Nat.le_of_succ_le (le_of_firstSubtreeAfter h)

/-- `insert_data` keeps a sublist of the subtrees: it drains a range of them. -/
theorem removeCompletedSubtrees_sublist {ts ts' : List Subtree} {u : PartialBatch}
    (h : removeCompletedSubtrees ts u = .ok ts') : ts'.Sublist ts := by
  unfold removeCompletedSubtrees at h
  rw [Except.bind_eq_ok] at h
  obtain ⟨found, hfound, h⟩ := h
  cases found with
  | none =>
    cases h
    exact List.Sublist.refl _
  | some i =>
    cases h
    have hle := le_of_firstSubtreeAfter hfound
    -- the kept subtrees are those before the start and those from `i` on
    refine List.Sublist.trans ((List.drop_sublist_drop_left ts hle).append_left _) ?_
    rw [List.take_append_drop]

/-- `insert_data` on an incomplete batch does to its partial batches what it
does with no subtrees, and keeps a sublist of its subtrees. -/
theorem insertData_withSubtrees {x : IncompleteData} {b : Nat} {d : List UInt8} {d' : EntryBatchData}
    {r : List Nat} (h : (EntryBatchData.incomplete x).insertData b d = .ok (d', r)) :
    ∃ d₀ ts, (EntryBatchData.incomplete ⟨[], x.knownData⟩).insertData b d = .ok (d₀, r) ∧
      d' = d₀.withSubtrees ts ∧ ts.Sublist x.subtrees := by
  unfold insertData at h ⊢
  -- every check that fails fails on both sides; the one difference is the subtree loop
  by_cases hb : b % bytesPerSector = 0
  swap
  · simp [hb] at h
  by_cases hd : d.length % bytesPerSector = 0
  swap
  · simp [hb, hd] at h
  cases h₁ : DataRange.find x.knownData (b / bytesPerSector) with
  | ok i => simp [hb, hd, h₁] at h
  | error j₁ =>
    cases h₂ : DataRange.find x.knownData (b / bytesPerSector + d.length / bytesPerSector - 1) with
    | ok i => simp [hb, hd, h₁, h₂] at h
    | error j₂ =>
      by_cases hj : j₁ = j₂
      swap
      · simp [hb, hd, h₁, h₂, hj] at h
      subst hj
      simp only [hb, hd, h₁, h₂, ne_eq, not_true_eq_false, ↓reduceIte, Except.ok_bind, Except.pure_eq_ok] at h ⊢
      rw [Except.bind_eq_ok] at h
      obtain ⟨kept, hkept, h⟩ := h
      cases h
      rw [removeCompletedSubtrees_nil, Except.ok_bind]
      refine ⟨_, kept, rfl, ?_, removeCompletedSubtrees_sublist hkept⟩
      split <;> rfl

/-! ### Partial batches written over or cut -/

/-- A batch replaced by one that starts where it does and stops no later,
with whole sectors and some data, keeps the list well formed. -/
theorem KnownWF.set_shorter {l : List PartialBatch} (hl : KnownWF l) {i : Nat} (hi : i < l.length)
    {p : PartialBatch} (hstart : p.startSector = l[i].startSector) (hne : p.data ≠ [])
    (hal : p.data.length % bytesPerSector = 0) (hle : p.data.length ≤ l[i].data.length) :
    KnownWF (l.set i p) := by
  have hali := hl.aligned_get hi
  refine ⟨?_, fun q hq => ?_, fun q hq => ?_⟩
  · rw [List.map_set]
    refine hl.separated.set (by simpa using hi) (by simpa using hne) ?_ ?_
    · simp [hstart]
    · simp only [List.getElem_map, Runs.Run.stop, PartialBatch.toRun_start, PartialBatch.toRun_data, hstart]
      omega
  · rcases List.mem_or_eq_of_mem_set hq with hq | rfl
    · exact hl.aligned q hq
    · exact hal
  · rcases List.mem_or_eq_of_mem_set hq with hq | rfl
    · exact hl.inLoad q hq
    · have hend := hl.inLoad _ (List.getElem_mem hi)
      rw [PartialBatch.endSector_eq hal]
      rw [PartialBatch.endSector_eq hali] at hend
      rw [hstart]
      have := Nat.div_le_div_right (c := bytesPerSector) hle
      omega

/-- Writing over a batch keeps whether the list fills the load. -/
theorem fillsLoad_set {l : List PartialBatch} {i : Nat} (hi : i < l.length) {p : PartialBatch}
    (hstart : p.startSector = l[i].startSector) (hlen : p.data.length = l[i].data.length) :
    fillsLoad (l.set i p) = fillsLoad l := by
  cases l with
  | nil => cases hi
  | cons q rest =>
    cases i with
    | zero =>
      simp only [List.getElem_cons_zero] at hstart hlen
      simp [fillsLoad, hstart, hlen]
    | succ k => simp [fillsLoad]

/-- A list whose batches all end before the end of the load does not fill it. -/
theorem fillsLoad_eq_false_of_end_lt {l : List PartialBatch} (hal : ∀ p ∈ l, p.data.length % bytesPerSector = 0)
    (hend : ∀ p ∈ l, DataRange.endSector p < sectorsPerLoad) : fillsLoad l = false := by
  cases hfill : fillsLoad l
  · rfl
  · obtain ⟨d, rfl, hd⟩ := fillsLoad_eq_true hal hfill
    have hlt := hend ⟨0, d⟩ List.mem_cons_self
    rw [PartialBatch.endSector_eq (by rw [hd]; rfl), hd] at hlt
    simp [bytesPerLoad, bytesPerSector, sectorsPerLoad] at hlt

/-- `IncompleteData::truncate` keeps a well-formed list, every batch of it
ending by the cut. -/
theorem KnownWF.truncate {x : IncompleteData} (hl : KnownWF x.knownData) (ts : Nat) :
    KnownWF (x.truncate ts).knownData ∧ ∀ p ∈ (x.truncate ts).knownData, DataRange.endSector p ≤ ts := by
  unfold IncompleteData.truncate
  cases hf : DataRange.find x.knownData ts with
  | error j =>
    -- no batch holds the cut: the batches before it are kept whole
    obtain ⟨-, hj⟩ := hl.find_error hf
    dsimp only
    refine ⟨hl.sublist (List.take_sublist _ _), fun p hp => ?_⟩
    obtain ⟨k, hk, rfl⟩ := List.mem_iff_getElem.mp hp
    rw [List.length_take] at hk
    rw [List.getElem_take]
    exact (hj k (by omega)).1 (by omega)
  | ok i =>
    -- batch `i` holds the cut: it keeps its sectors before the cut
    obtain ⟨hi, hstart, hend⟩ := hl.find_ok hf
    have hali := hl.aligned_get hi
    rw [PartialBatch.endSector_eq hali] at hend
    dsimp only
    rw [getElem!_pos x.knownData i hi]
    have hcut : (ts - x.knownData[i].startSector) * bytesPerSector < x.knownData[i].data.length := by
      unfold bytesPerSector at hali hend ⊢
      omega
    have hbefore : ∀ (k : Nat) (hk : k < i), DataRange.endSector x.knownData[k] ≤ ts := fun k hk =>
      Nat.le_of_lt (Nat.lt_of_lt_of_le (hl.end_lt_start (by omega) hi hk) hstart)
    by_cases hempty : (x.knownData[i].data.take ((ts - x.knownData[i].startSector) * bytesPerSector)).isEmpty
    · simp only [hempty, if_true, List.take_set_of_le (Nat.le_refl i)]
      refine ⟨hl.sublist (List.take_sublist _ _), fun p hp => ?_⟩
      obtain ⟨k, hk, rfl⟩ := List.mem_iff_getElem.mp hp
      rw [List.length_take] at hk
      rw [List.getElem_take]
      exact hbefore k (by omega)
    · simp only [hempty, Bool.false_eq_true, if_false]
      have hlen : (x.knownData[i].data.take ((ts - x.knownData[i].startSector) * bytesPerSector)).length =
          (ts - x.knownData[i].startSector) * bytesPerSector := by
        rw [List.length_take]
        omega
      have hwf := hl.set_shorter hi (p := ⟨x.knownData[i].startSector,
          x.knownData[i].data.take ((ts - x.knownData[i].startSector) * bytesPerSector)⟩) rfl
        (by simpa using hempty) (by rw [hlen]; simp [bytesPerSector]) (by dsimp only; rw [hlen]; omega)
      refine ⟨hwf.sublist (List.take_sublist _ _), fun p hp => ?_⟩
      obtain ⟨k, hk, rfl⟩ := List.mem_iff_getElem.mp hp
      rw [List.length_take, List.length_set] at hk
      rw [List.getElem_take, List.getElem_set]
      split_ifs with hki
      · subst hki
        rw [PartialBatch.endSector_eq (by rw [hlen]; simp [bytesPerSector])]
        dsimp only
        rw [hlen, Nat.mul_div_cancel _ (by decide)]
        omega
      · exact hbefore k (by omega)

/-! ### The shape the operations keep -/

/-- What the operations keep of a batch's data: a complete batch holds the
whole load; an incomplete one holds well-formed partial batches that do not
fill it, and subtrees whose fields fit their `usize`. -/
def Shaped : EntryBatchData → Prop
  | .complete data => data.length = bytesPerLoad
  | .incomplete x => KnownWF x.knownData ∧ fillsLoad x.knownData = false ∧ ∀ t ∈ x.subtrees, t.Encodable

theorem shaped_new : new.Shaped := ⟨inv_new.2.1, rfl, fun _ h => by cases h⟩

/-- A subtree of `usize` fields fits them. -/
theorem encodable_of_usize (subtree : UInt64 × UInt64 × H256) :
    (⟨subtree.1.toNat, subtree.2.1.toNat, subtree.2.2⟩ : Subtree).Encodable :=
  ⟨subtree.1.toNat_lt, subtree.2.1.toNat_lt⟩

theorem encodable_of_keptSubtrees {self : EntryBatchData} :
    ∀ {l : List (UInt64 × UInt64 × H256)} {ts : List Subtree}, self.keptSubtrees l = .ok ts → ∀ t ∈ ts, t.Encodable
  | [], ts, h => by
    cases h
    intro t ht
    cases ht
  | subtree :: rest, ts, h => by
    rw [keptSubtrees, Except.bind_eq_ok] at h
    obtain ⟨keep, -, h⟩ := h
    rw [Except.bind_eq_ok] at h
    obtain ⟨kept, hkept, h⟩ := h
    cases h
    intro t ht
    split at ht
    · rcases List.mem_cons.mp ht with rfl | ht
      · exact encodable_of_usize subtree
      · exact encodable_of_keptSubtrees hkept t ht
    · exact encodable_of_keptSubtrees hkept t ht

/-- A subtree that the test keeps is kept each time the list repeats it. -/
theorem keptSubtrees_replicate {self : EntryBatchData} {subtree : UInt64 × UInt64 × H256}
    (h : self.keepSubtree subtree = .ok true) :
    ∀ n, self.keptSubtrees (List.replicate n subtree) =
      .ok (List.replicate n ⟨subtree.1.toNat, subtree.2.1.toNat, subtree.2.2⟩)
  | 0 => rfl
  | n + 1 => by
    rw [List.replicate_succ, keptSubtrees, h, Except.ok_bind, keptSubtrees_replicate h n, Except.ok_bind, if_pos rfl]
    rfl

theorem Shaped.setSubtreeList {s s' : EntryBatchData} (hs : s.Shaped) {subtreeList : List (UInt64 × UInt64 × H256)}
    (h : s.setSubtreeList subtreeList = .ok s') : s'.Shaped := by
  rw [EntryBatchData.setSubtreeList, Except.bind_eq_ok] at h
  obtain ⟨kept, hkept, h⟩ := h
  cases s with
  | complete data =>
    cases h
    exact hs
  | incomplete x =>
    cases h
    exact ⟨hs.1, hs.2.1, encodable_of_keptSubtrees hkept⟩

/-- An insert that succeeds keeps the shape: it is the insert with no
subtrees, which keeps the invariant of `ChunkMap`, with some of the
subtrees kept. -/
theorem Shaped.insertData {s s' : EntryBatchData} (hs : s.Shaped) {b : Nat} {d : List UInt8} (hv : ValidInsert b d)
    {r : List Nat} (h : s.insertData b d = .ok (s', r)) : s'.Shaped := by
  cases s with
  | complete data =>
    obtain ⟨msg, hmsg⟩ := @insertData_complete data _ _ hv.1 hv.2.1
    rw [hmsg] at h
    cases h
  | incomplete x =>
    obtain ⟨d₀, ts, h₀, rfl, hts⟩ := insertData_withSubtrees h
    have hinv := ((show Inv (.incomplete ⟨[], x.knownData⟩) from ⟨rfl, hs.1, hs.2.1⟩).insertData_ok hv h₀).1
    cases d₀ with
    | complete data => exact hinv
    | incomplete y => exact ⟨hinv.2.1, hinv.2.2, fun t ht => hs.2.2 t (hts.subset ht)⟩

/-- A slice that `slice.get` returns lies in the data, as long as asked. -/
theorem bound_of_sliceGet {data slice : List UInt8} {a L : Nat} (h : sliceGet data a (a + L) = some slice) :
    a + L ≤ data.length ∧ slice.length = L := by
  unfold sliceGet at h
  split_ifs at h with hb
  cases h
  refine ⟨hb.2, ?_⟩
  rw [List.length_take, List.length_drop]
  omega

/-- `get_mut` hands out a slice as long as asked. -/
theorem length_of_getMut {s : EntryBatchData} {a L : Nat} {slice : List UInt8} {write : List UInt8 → EntryBatchData}
    (h : s.getMut a L = .ok (some (slice, write))) : slice.length = L := by
  unfold getMut at h
  split_ifs at h
  cases s with
  | complete data =>
    simp only [Except.ok.injEq, Option.map_eq_some_iff, Prod.mk.injEq] at h
    obtain ⟨sl, hsl, rfl, -⟩ := h
    exact (bound_of_sliceGet hsl).2
  | incomplete x =>
    cases hf : DataRange.find x.knownData (a / bytesPerSector) with
    | error j => simp [hf] at h
    | ok i =>
      simp only [hf, Except.ok.injEq, Option.map_eq_some_iff, Prod.mk.injEq] at h
      obtain ⟨sl, hsl, rfl, -⟩ := h
      exact (bound_of_sliceGet hsl).2

/-- Writing a slice of the same length back through `get_mut` keeps the
shape: every batch keeps its place and its length. -/
theorem Shaped.getMut {s : EntryBatchData} (hs : s.Shaped) {a L : Nat} {slice : List UInt8}
    {write : List UInt8 → EntryBatchData} (h : s.getMut a L = .ok (some (slice, write))) {slice' : List UInt8}
    (hlen : slice'.length = L) : (write slice').Shaped := by
  unfold EntryBatchData.getMut at h
  split_ifs at h
  cases s with
  | complete data =>
    simp only [Except.ok.injEq, Option.map_eq_some_iff, Prod.mk.injEq] at h
    obtain ⟨sl, hsl, -, rfl⟩ := h
    have hb := (bound_of_sliceGet hsl).1
    show (data.take a ++ slice' ++ data.drop (a + L)).length = bytesPerLoad
    simp only [List.length_append, List.length_take, List.length_drop, hlen]
    rw [← hs]
    omega
  | incomplete x =>
    cases hf : DataRange.find x.knownData (a / bytesPerSector) with
    | error j => simp [hf] at h
    | ok i =>
      simp only [hf, Except.ok.injEq, Option.map_eq_some_iff, Prod.mk.injEq] at h
      obtain ⟨sl, hsl, -, rfl⟩ := h
      obtain ⟨hi, -, -⟩ := hs.1.find_ok hf
      rw [getElem!_pos x.knownData i hi] at hsl ⊢
      have hb := (bound_of_sliceGet hsl).1
      -- the batch written over keeps its start and its length
      set newData := x.knownData[i].data.take (a - x.knownData[i].startSector * bytesPerSector) ++ slice' ++
        x.knownData[i].data.drop (a - x.knownData[i].startSector * bytesPerSector + L) with hnew
      have hlen' : newData.length = x.knownData[i].data.length := by
        simp only [hnew, List.length_append, List.length_take, List.length_drop, hlen]
        omega
      have hne : x.knownData[i].data ≠ [] := hs.1.ne_nil hi
      refine ⟨hs.1.set_shorter hi rfl ?_ ?_ (Nat.le_of_eq hlen'), ?_, hs.2.2⟩
      · rw [← List.length_pos_iff, hlen']
        exact List.length_pos_of_ne_nil hne
      · rw [hlen']
        exact hs.1.aligned_get hi
      · rw [fillsLoad_set hi (p := ⟨x.knownData[i].startSector, newData⟩) rfl hlen']
        exact hs.2.1

/-- A cut inside the load keeps the shape: what is left is a list of
batches that end by the cut, and a prefix of the subtrees. -/
theorem Shaped.truncate {s s' : EntryBatchData} (hs : s.Shaped) {ts : Nat} (hts : ts < sectorsPerLoad)
    (h0 : 0 < ts) (h : s.truncate (ts * bytesPerSector) = .ok s') : s'.Shaped := by
  unfold EntryBatchData.truncate at h
  rw [if_neg (by simp [bytesPerSector])] at h
  cases s with
  | complete data =>
    cases h
    -- the whole load cut at `ts`: one batch of `ts` sectors from sector `0`
    have hlen : (data.take (ts * bytesPerSector)).length = ts * bytesPerSector := by
      rw [List.length_take, hs]
      unfold bytesPerLoad bytesPerSector
      unfold sectorsPerLoad at hts
      omega
    have hal : (data.take (ts * bytesPerSector)).length % bytesPerSector = 0 := by
      rw [hlen]
      simp [bytesPerSector]
    have hend : DataRange.endSector (⟨0, data.take (ts * bytesPerSector)⟩ : PartialBatch) = ts := by
      rw [PartialBatch.endSector_eq hal, hlen, Nat.mul_div_cancel _ (by decide), Nat.zero_add]
    have hwf : KnownWF [⟨0, data.take (ts * bytesPerSector)⟩] := by
      refine ⟨⟨fun r hr => ?_, List.pairwise_singleton _ _⟩, fun p hp => ?_, fun p hp => ?_⟩
      · rw [List.map_singleton, List.mem_singleton] at hr
        subst hr
        rw [PartialBatch.toRun_data, ← List.length_pos_iff, hlen]
        unfold bytesPerSector
        omega
      · rw [List.mem_singleton] at hp
        subst hp
        exact hal
      · rw [List.mem_singleton] at hp
        subst hp
        omega
    refine ⟨hwf, fillsLoad_eq_false_of_end_lt hwf.aligned fun p hp => ?_, fun t ht => by cases ht⟩
    rw [List.mem_singleton] at hp
    subst hp
    omega
  | incomplete x =>
    cases h
    rw [Nat.mul_div_cancel _ (by decide)]
    obtain ⟨hwf, hend⟩ := hs.1.truncate ts
    refine ⟨hwf, fillsLoad_eq_false_of_end_lt hwf.aligned fun p hp => Nat.lt_of_le_of_lt (hend p hp) hts,
      fun t ht => hs.2.2 t ((List.take_sublist _ _).subset ht)⟩

/-- `insert_data` asserts that the data is of whole sectors. -/
theorem aligned_of_insertData {s : EntryBatchData} {b : Nat} {d : List UInt8} {r : EntryBatchData × List Nat}
    (h : s.insertData b d = .ok r) : d.length % bytesPerSector = 0 := by
  by_contra hd
  unfold EntryBatchData.insertData at h
  by_cases hb : b % bytesPerSector = 0
  · simp [hb, hd] at h
  · simp [hb] at h

/-- `get` asserts that the range lies in the load. -/
theorem bound_of_get {s : EntryBatchData} {a L : Nat} {r : Option (List UInt8)} (h : s.get a L = .ok r) :
    a + L ≤ bytesPerLoad := by
  unfold EntryBatchData.get at h
  split_ifs at h with hb
  exact hb

/-! ### What the database form asks of the data -/

/-- Well-formed partial batches hold at most the load between them. -/
theorem KnownWF.sum_length_le {l : List PartialBatch} (hl : KnownWF l) :
    (l.map fun p => p.data.length).sum ≤ bytesPerLoad := by
  have h := hl.separated.sum_length_le 0 bytesPerLoad fun r hr => by
    obtain ⟨p, hp, rfl⟩ := List.mem_map.mp hr
    refine ⟨Nat.zero_le _, ?_⟩
    rw [PartialBatch.toRun_stop (hl.aligned p hp)]
    have hend := hl.inLoad p hp
    unfold bytesPerLoad bytesPerSector
    unfold sectorsPerLoad at hend
    omega
  simpa [List.map_map, Function.comp_def] using h

/-- None of them is empty, so there are no more of them than bytes. -/
theorem KnownWF.length_le_sum {l : List PartialBatch} (hl : KnownWF l) :
    l.length ≤ (l.map fun p => p.data.length).sum := by
  simpa [List.map_map, Function.comp_def] using hl.separated.length_le_sum

/-- Shaped data with at most `89478485` subtrees is encodable: the offset
after the subtrees, `8 + 48 * n`, fits four bytes, and the partial batches
start in the load and hold at most the load, so that the offset after them
fits as well. -/
theorem Shaped.encodable {s : EntryBatchData} (hs : s.Shaped) (hsub : s.getSubtreeList.length ≤ 89478485) :
    s.Encodable := by
  cases s with
  | complete data => trivial
  | incomplete x =>
    obtain ⟨hwf, -, hsubtrees⟩ := hs
    have hsum := hwf.sum_length_le
    have hlen := hwf.length_le_sum
    refine ⟨hsubtrees, fun p hp => ?_, ?_, ?_⟩
    · have hend := hwf.inLoad p hp
      have hstart : p.startSector ≤ DataRange.endSector p := Nat.le_add_right _ _
      unfold sectorsPerLoad at hend
      omega
    · rw [getSubtreeList] at hsub
      omega
    · unfold bytesPerLoad at hsum
      omega

end EntryBatchData

namespace SealInfo

/-- What the operations keep of the seal information: the bitmap marks only
the load's seals, the load index fits its `u64`, and every context ends
within the load. -/
structure WellFormed (s : SealInfo) : Prop where
  bitmap_lt : ∀ i, s.bitmap i = true → i < sealsPerLoad
  loadIndex_lt : s.loadIndex < 2 ^ 64
  endSealIndex_le : ∀ c ∈ s.sealContexts, c.endSealIndex ≤ sealsPerLoad

theorem wellFormed_new {c : Nat} (hc : c < 2 ^ 64) : (new c).WellFormed :=
  ⟨(fun _ h => by simp [SealInfo.new] at h), hc, (fun _ h => by simp [SealInfo.new] at h)⟩

theorem WellFormed.encodable {s : SealInfo} (hs : s.WellFormed) : s.Encodable :=
  ⟨hs.bitmap_lt, hs.loadIndex_lt, fun c hc => Nat.lt_of_le_of_lt (hs.endSealIndex_le c hc) (by decide)⟩

theorem WellFormed.markSealed {s : SealInfo} (hs : s.WellFormed) {i : Nat} (hi : i < sealsPerLoad) :
    (s.markSealed i).WellFormed := by
  refine ⟨fun j hj => ?_, hs.loadIndex_lt, hs.endSealIndex_le⟩
  simp only [SealInfo.markSealed] at hj
  split_ifs at hj with hji
  · rw [hji]
    exact hi
  · exact hs.bitmap_lt j hj

/-- `set_seal_context` changes the miner id and the contexts, and the
context it adds ends within the load. -/
theorem WellFormed.setSealContext {s s' : SealInfo} (hs : s.WellFormed) {contextDigest : H256}
    {globalEndSealIndex : Nat} {minerId : H256}
    (h : s.setSealContext contextDigest globalEndSealIndex minerId = .ok s') : s'.WellFormed := by
  unfold SealInfo.setSealContext at h
  split_ifs at h with h₁ h₂ <;>
    simp only [Except.pure_eq_ok, Except.ok_bind, Except.throw_eq_error, Except.error_bind, reduceCtorEq] at h
  -- either miner id: the fields of `s` but the miner id, and one context more or none
  all_goals
    split at h
    · rename_i existing hexisting
      have hpos := (List.getElem?_eq_some_iff.mp hexisting).1
      split_ifs at h
      · cases h
        exact ⟨hs.bitmap_lt, hs.loadIndex_lt, hs.endSealIndex_le⟩
      · cases h
        refine ⟨hs.bitmap_lt, hs.loadIndex_lt, fun c hc => ?_⟩
        rcases (List.mem_insertIdx (Nat.le_of_lt hpos)).mp hc with rfl | hc
        · exact Nat.min_le_right _ _
        · exact hs.endSealIndex_le c hc
    · cases h
      refine ⟨hs.bitmap_lt, hs.loadIndex_lt, fun c hc => ?_⟩
      rcases List.mem_append.mp hc with hc | hc
      · exact hs.endSealIndex_le c hc
      · rw [List.mem_singleton] at hc
        subst hc
        exact Nat.min_le_right _ _

/-- Unsealing keeps the length of the data. -/
theorem length_of_unseal [Keccak] {s : SealInfo} {data out : List UInt8} {index : Nat}
    (h : s.unseal data index = .ok out) : out.length = data.length := by
  unfold SealInfo.unseal at h
  split at h
  · cases h
    rfl
  · split at h
    · cases h
    · unfold ZgsSeal.unseal ZgsSeal.unsealWithMaskSeed ZgsSeal.unsealWithMask at h
      split_ifs at h
      cases h
      exact ZgsSeal.length_unsealLoop _ _

theorem WellFormed.truncate {s : SealInfo} (hs : s.WellFormed) (revertedSealIndex : Nat) :
    (s.truncate revertedSealIndex).WellFormed := by
  refine ⟨fun i hi => hs.bitmap_lt i (Bool.and_eq_true_iff.mp hi).1, hs.loadIndex_lt, fun c hc => ?_⟩
  exact hs.endSealIndex_le c ((List.take_sublist _ _).subset hc)

end SealInfo

namespace EntryBatch

/-- `EntryBatch::set_subtree_list`. -/
def setSubtreeList (b : EntryBatch) (subtreeList : List (UInt64 × UInt64 × H256)) : Except Error EntryBatch := do
  let data ← b.data.setSubtreeList subtreeList
  pure { b with data }

/-- What the operations keep of a batch. -/
structure WellFormed (b : EntryBatch) : Prop where
  sealInfo : b.seal.WellFormed
  data : b.data.Shaped

theorem wellFormed_new {c : Nat} (hc : c < 2 ^ 64) : (new c).WellFormed :=
  ⟨SealInfo.wellFormed_new hc, EntryBatchData.shaped_new⟩

theorem WellFormed.setSubtreeList {b b' : EntryBatch} (hb : b.WellFormed) {subtreeList : List (UInt64 × UInt64 × H256)}
    (h : b.setSubtreeList subtreeList = .ok b') : b'.WellFormed := by
  rw [EntryBatch.setSubtreeList, Except.bind_eq_ok] at h
  obtain ⟨data, hdata, h⟩ := h
  cases h
  exact ⟨hb.sealInfo, hb.data.setSubtreeList hdata⟩

variable [Keccak]

/-- `get_unsealed_data` reads through `get`, which asserts that the range
lies in the load; a read that starts inside a sealed seal starts a word
early, past sector `0`. -/
theorem bound_of_getUnsealedData {b : EntryBatch} {startSector lengthSector : Nat} {r : Option (List UInt8)}
    (h : b.getUnsealedData startSector lengthSector = .ok r) :
    startSector * bytesPerSector + lengthSector * bytesPerSector ≤ bytesPerLoad := by
  unfold EntryBatch.getUnsealedData at h
  dsimp only at h
  generalize hadv : (if startSector % sectorsPerSeal = 0 then false
    else b.seal.isSealed (startSector / sectorsPerSeal)) = advancedByOne at h
  cases advancedByOne with
  | false =>
    simp only [Bool.false_eq_true, if_false] at h
    rw [Except.bind_eq_ok] at h
    obtain ⟨loaded, hloaded, -⟩ := h
    exact EntryBatchData.bound_of_get hloaded
  | true =>
    simp only [if_true] at h
    rw [Except.bind_eq_ok] at h
    obtain ⟨loaded, hloaded, -⟩ := h
    have hbound := EntryBatchData.bound_of_get hloaded
    have hpos : 0 < startSector := by
      by_contra hzero
      rw [show startSector = 0 by omega] at hadv
      simp at hadv
    unfold bytesPerSector at hbound ⊢
    omega

/-- An insert keeps the batch well formed: data that `get_unsealed_data`
already shows leaves it as it is, and other data is a valid insert, in the
load by the assertion of `get` and of whole sectors by that of
`insert_data`. -/
theorem WellFormed.insertData {b b' : EntryBatch} (hb : b.WellFormed) {offset : Nat} {data : List UInt8}
    {r : List Nat} (h : b.insertData offset data = .ok (b', r)) : b'.WellFormed := by
  unfold EntryBatch.insertData at h
  by_cases he : data.isEmpty = true
  · simp only [he, if_true] at h
    cases h
    exact hb
  simp only [he, Bool.false_eq_true, if_false] at h
  rw [Except.bind_eq_ok] at h
  obtain ⟨got, hgot, h⟩ := h
  by_cases hsame : got = some data
  · simp only [hsame, if_true] at h
    cases h
    exact hb
  simp only [hsame, if_false] at h
  rw [Except.bind_eq_ok] at h
  obtain ⟨⟨d, ready⟩, hins, h⟩ := h
  cases h
  have hal := EntryBatchData.aligned_of_insertData hins
  have hbound := bound_of_getUnsealedData hgot
  rw [Nat.div_mul_cancel (Nat.dvd_of_mod_eq_zero hal)] at hbound
  have hv : EntryBatchData.ValidInsert (offset * bytesPerSector) data :=
    ⟨Nat.mul_mod_left _ _, hal, by simpa using he, hbound⟩
  exact ⟨hb.sealInfo, hb.data.insertData hv hins⟩

omit [Keccak] in
/-- A seal result is written over its seal, which keeps the data's shape,
and marks a seal of the load. -/
theorem WellFormed.submitSealResult {b b' : EntryBatch} (hb : b.WellFormed) {answer : SealAnswer}
    (h : b.submitSealResult answer = .ok b') : b'.WellFormed := by
  unfold EntryBatch.submitSealResult at h
  -- both assertions hold
  by_cases hsealed : b.seal.isSealed (answer.sealIndex % sealsPerLoad) = true
  · simp [hsealed] at h
  by_cases hload : answer.sealIndex / sealsPerLoad = b.seal.loadIndex
  swap
  · simp [hsealed, hload] at h
  simp only [hsealed, hload, ne_eq, not_true_eq_false, Bool.false_eq_true, ↓reduceIte, Except.pure_eq_ok] at h
  rw [Except.bind_eq_ok] at h
  obtain ⟨s, hs, h⟩ := h
  rw [Except.bind_eq_ok] at h
  obtain ⟨got, hgot, h⟩ := h
  rcases got with _ | ⟨slice, write⟩
  · cases h
  · cases h
    exact ⟨(hb.sealInfo.setSealContext hs).markSealed (Nat.mod_lt _ (by decide)),
      hb.data.getMut hgot (by simp [bytesPerSeal])⟩

/-- One turn of `truncate_seal`: a seal unsealed in place. -/
theorem WellFormed.truncateSealStep {state state' : EntryBatch × List Nat} (hb : state.1.WellFormed)
    {truncatedSector unsealIndex : Nat} (h : truncateSealStep truncatedSector state unsealIndex = .ok state') :
    state'.1.WellFormed := by
  obtain ⟨b, toResealSet⟩ := state
  unfold EntryBatch.truncateSealStep at h
  dsimp only at h
  split_ifs at h
  · cases h
    exact hb
  rw [Except.bind_eq_ok] at h
  obtain ⟨got, hgot, h⟩ := h
  rcases got with _ | ⟨toUnseal, write⟩
  · cases h
  rw [Except.bind_eq_ok] at h
  obtain ⟨unsealed, hunsealed, h⟩ := h
  cases h
  exact ⟨hb.sealInfo, hb.data.getMut hgot
    ((SealInfo.length_of_unseal hunsealed).trans (EntryBatchData.length_of_getMut hgot))⟩

theorem WellFormed.truncateSeal {b b' : EntryBatch} (hb : b.WellFormed) {truncatedSector : Nat} {r : List Nat}
    (h : b.truncateSeal truncatedSector = .ok (b', r)) : b'.WellFormed := by
  unfold EntryBatch.truncateSeal at h
  dsimp only at h
  rw [Except.bind_eq_ok] at h
  obtain ⟨⟨b₁, toResealSet⟩, hfold, h⟩ := h
  cases h
  -- every turn of the loop keeps the batch well formed
  have hb₁ : b₁.WellFormed := Except.rel_of_foldlM_eq_ok (fun st st' => st.1.WellFormed → st'.1.WellFormed)
    (fun _ h => h) (fun _ _ _ h₁ h₂ h => h₂ (h₁ h)) _
    (fun _ _ _ _ hstep hst => WellFormed.truncateSealStep hst hstep) hfold hb
  exact ⟨hb₁.sealInfo.truncate _, hb₁.data⟩

theorem WellFormed.truncate {b b' : EntryBatch} (hb : b.WellFormed) {truncatedSector : Nat} {r : List Nat}
    (h : b.truncate truncatedSector = .ok (b', r)) : b'.WellFormed := by
  unfold EntryBatch.truncate at h
  split_ifs at h with hts
  · rw [Except.bind_eq_ok] at h
    obtain ⟨data, hdata, h⟩ := h
    exact WellFormed.truncateSeal (b := { b with data }) ⟨hb.sealInfo, hb.data.truncate hts.2 hts.1 hdata⟩ h
  · simp at h

end EntryBatch

/-- The operations that change a stored batch. -/
inductive BatchOp where
  | insertData (offset : Nat) (data : List UInt8)
  | setSubtreeList (subtreeList : List (UInt64 × UInt64 × H256))
  | submitSealResult (answer : SealAnswer)
  | truncate (truncatedSector : Nat)

section Runs

variable [Keccak]

/-- One operation on a batch; the seals that `insert_data` and `truncate`
report are not kept. -/
def BatchOp.run (op : BatchOp) (b : EntryBatch) : Except Error EntryBatch :=
  match op with
  | .insertData offset data => Prod.fst <$> b.insertData offset data
  | .setSubtreeList subtreeList => b.setSubtreeList subtreeList
  | .submitSealResult answer => b.submitSealResult answer
  | .truncate truncatedSector => Prod.fst <$> b.truncate truncatedSector

/-- The operations in turn, up to the first that fails. -/
def runBatchOps (b : EntryBatch) (ops : List BatchOp) : Except Error EntryBatch :=
  ops.foldlM (fun b op => op.run b) b

namespace EntryBatch

/-- One operation keeps a batch well formed. -/
theorem WellFormed.run {b b' : EntryBatch} (hb : b.WellFormed) {op : BatchOp} (h : op.run b = .ok b') :
    b'.WellFormed := by
  cases op with
  | insertData offset data =>
    obtain ⟨⟨b₁, r⟩, h₁, rfl⟩ := Except.map_eq_ok.mp h
    exact hb.insertData h₁
  | setSubtreeList subtreeList => exact hb.setSubtreeList h
  | submitSealResult answer => exact hb.submitSealResult h
  | truncate truncatedSector =>
    obtain ⟨⟨b₁, r⟩, h₁, rfl⟩ := Except.map_eq_ok.mp h
    exact hb.truncate h₁

/-- Every batch a run of operations reaches from a well-formed one is well
formed. -/
theorem WellFormed.runBatchOps {b b' : EntryBatch} (hb : b.WellFormed) {ops : List BatchOp}
    (h : runBatchOps b ops = .ok b') : b'.WellFormed :=
  Except.rel_of_foldlM_eq_ok (fun b b' => b.WellFormed → b'.WellFormed) (fun _ h => h)
    (fun _ _ _ h₁ h₂ h => h₂ (h₁ h)) ops (fun _ _ _ _ hstep hb => hb.run hstep) h hb

omit [Keccak] in
/-- A well-formed batch is encodable when its subtrees and seal contexts
are few enough for the offsets after them to fit four bytes. -/
theorem WellFormed.encodable {b : EntryBatch} (hb : b.WellFormed) (hsub : b.data.getSubtreeList.length ≤ 89478485)
    (hctx : b.seal.sealContexts.length ≤ 126322565) : b.Encodable :=
  ⟨hb.sealInfo.encodable, hb.data.encodable hsub, by omega⟩

end EntryBatch

/-- A batch that the operations reach from a new one reads back from its
database form, when it holds at most `89478485` subtrees and `126322565`
seal contexts: the most for which the offsets after them, `8 + 48 * n` and
`60 + 34 * n`, fit the four bytes they are written in. -/
theorem runBatchOps_fromSszBytes {c : Nat} (hc : c < 2 ^ 64) (ops : List BatchOp) {b : EntryBatch}
    (h : runBatchOps (EntryBatch.new c) ops = .ok b) (hsub : b.data.getSubtreeList.length ≤ 89478485)
    (hctx : b.seal.sealContexts.length ≤ 126322565) : EntryBatch.fromSszBytes b.asSszBytes = .ok b :=
  (((EntryBatch.wellFormed_new hc).runBatchOps h).encodable hsub hctx).fromSszBytes_asSszBytes

end Runs

theorem runBatchOps_fromSszBytes_oneSubtree :
    (0 : Nat) < 2 ^ 64 ∧
      runBatchOps (EntryBatch.new 0) [.setSubtreeList [(0, 1, Vector.replicate 32 1)]] =
        .ok ⟨SealInfo.new 0, .incomplete ⟨[⟨0, 1, Vector.replicate 32 1⟩], []⟩⟩ ∧
      (EntryBatchData.incomplete ⟨[⟨0, 1, Vector.replicate 32 1⟩], []⟩).getSubtreeList.length ≤ 89478485 ∧
      (SealInfo.new 0).sealContexts.length ≤ 126322565 ∧
      EntryBatch.fromSszBytes (⟨SealInfo.new 0, .incomplete ⟨[⟨0, 1, Vector.replicate 32 1⟩], []⟩⟩ : EntryBatch).asSszBytes =
        .ok ⟨SealInfo.new 0, .incomplete ⟨[⟨0, 1, Vector.replicate 32 1⟩], []⟩⟩ :=
  ⟨by decide, rfl, by decide, by decide, runBatchOps_fromSszBytes (by decide)
    [.setSubtreeList [(0, 1, Vector.replicate 32 1)]] rfl (by decide) (by decide)⟩

/-- A new batch given `89478486` subtrees by `set_subtree_list` does not read
back: the offset after the subtrees, `8 + 48 * 89478486`, is written in four
bytes as `40`. -/
theorem runBatchOps_manySubtrees :
    ∃ b, runBatchOps (EntryBatch.new 0) [.setSubtreeList (List.replicate 89478486 (0, 1, Vector.replicate 32 1))] =
        .ok b ∧ EntryBatch.fromSszBytes b.asSszBytes = .error (.decode (.invalidByteLength 32 48)) := by
  have hkeep : EntryBatchData.new.keepSubtree (0, 1, Vector.replicate 32 1) = .ok true := rfl
  refine ⟨⟨SealInfo.new 0, .incomplete ⟨List.replicate 89478486 ⟨0, 1, Vector.replicate 32 1⟩, []⟩⟩, ?_, ?_⟩
  · rw [runBatchOps, List.foldlM_cons, BatchOp.run, EntryBatch.setSubtreeList, EntryBatch.new,
      EntryBatchData.setSubtreeList, EntryBatchData.keptSubtrees_replicate hkeep]
    rfl
  · -- the seal information of a new batch reads back, and its data does not
    have hs : (SealInfo.new 0).Encodable := (SealInfo.wellFormed_new (by decide)).encodable
    refine EntryBatch.fromSszBytes_asSszBytes_of_data hs (by decide) ?_
    rw [EntryBatchData.asSszBytes, EntryBatchData.fromSszBytes, if_neg (by decide), if_pos rfl,
      IncompleteData.fromSszBytes_manySubtrees]
    rfl

end ZgStorage
