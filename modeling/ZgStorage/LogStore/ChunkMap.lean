import ZgStorage.LogStore.ChunkInsert

/-!
# `EntryBatchData` as a partial map from sectors to bytes

Over the states that `insert_data` reaches from `new`: a call refuses data
exactly when it meets a known sector, and otherwise adds it; `get` returns
the bytes of a range exactly when all its sectors are known; the data is
complete exactly when every sector is; and a state is determined by what it
knows (`eq_of_byteAt`), so inserting disjoint ranges in any order ends in
the same state.

* `Inv.insertData_spec`, `Inv.get_spec`, `Inv.complete_iff`: one call from
  a reachable state;
* `inv_insertAll`, `byteAt_insertAll`: a whole sequence of calls.
-/

namespace ZgStorage

namespace EntryBatchData

/-- Two sector ranges that meet share a sector. -/
theorem exists_common_sector {S E a e : Nat} (hSE : S < E) (hae : a < e) (h : ¬ (e ≤ S ∨ E ≤ a)) :
    ∃ x, S ≤ x ∧ a ≤ x ∧ x < E ∧ x < e := by
  rcases Nat.le_total S a with hle | hle
  · exact ⟨a, hle, Nat.le_refl _, by omega, hae⟩
  · exact ⟨S, Nat.le_refl _, hle, hSE, by omega⟩

section Known

variable {x : IncompleteData} (hl : KnownWF x.knownData)
include hl

/-- A sector is known to an incomplete batch exactly when one of its
partial batches holds it. -/
theorem KnownWF.sectorKnown_iff (k : Nat) :
    (EntryBatchData.incomplete x).sectorKnown k = true ↔
      ∃ (q : Nat) (hq : q < x.knownData.length),
        x.knownData[q].startSector ≤ k ∧ k < DataRange.endSector x.knownData[q] := by
  unfold sectorKnown byteAt
  constructor
  · intro h
    obtain ⟨a, ha⟩ := Option.isSome_iff_exists.mp h
    obtain ⟨q, hq, h₁, h₂⟩ := hl.holds_of_get ha
    exact ⟨q, hq, Nat.le_of_mul_le_mul_right h₁ (by decide), Nat.lt_of_mul_lt_mul_right h₂⟩
  · rintro ⟨q, hq, h₁, h₂⟩
    exact hl.get_isSome_of_holds hq (Nat.mul_le_mul_right _ h₁)
      (Nat.mul_lt_mul_of_pos_right h₂ (by decide))

/-- No partial batch meets a range exactly when none of its sectors is
known. -/
theorem KnownWF.misses_iff {S E : Nat} (hSE : S < E) :
    Misses x.knownData S E ↔ ∀ k, S ≤ k → k < E → (EntryBatchData.incomplete x).sectorKnown k = false := by
  constructor
  · intro hm k hSk hkE
    rw [Bool.eq_false_iff]
    intro hk
    obtain ⟨q, hq, h₁, h₂⟩ := (hl.sectorKnown_iff k).mp hk
    rcases hm q hq with h | h <;> omega
  · intro h q hq
    by_contra hmeet
    obtain ⟨k, hSk, hqk, hkE, hke⟩ := exists_common_sector hSE (hl.start_lt_end hq) hmeet
    have hk := h k hSk hkE
    rw [(hl.sectorKnown_iff k).mpr ⟨q, hq, hqk, hke⟩] at hk
    cases hk

/-- The batches of a well-formed list that knows every sector of the load
fill it: one batch, from sector `0` to the end. -/
theorem KnownWF.fillsLoad_of_known
    (h : ∀ k < sectorsPerLoad, (EntryBatchData.incomplete x).sectorKnown k = true) :
    fillsLoad x.knownData = true := by
  have hpos : 0 < sectorsPerLoad := by decide
  obtain ⟨q₀, hq₀, h₀, -⟩ := (hl.sectorKnown_iff 0).mp (h 0 hpos)
  have hlen : 0 < x.knownData.length := by omega
  -- batch `0` starts at sector `0`: a batch before the one holding sector `0` would end below it
  have hstart : x.knownData[0].startSector = 0 := by
    rcases Nat.eq_zero_or_pos q₀ with rfl | hq
    · omega
    · have := hl.end_lt_start hlen hq₀ hq
      omega
  -- batch `0` ends at the end of the load: the sector after it would be held by no batch
  have hend : DataRange.endSector x.knownData[0] = sectorsPerLoad := by
    have hle := hl.inLoad _ (List.getElem_mem hlen)
    by_contra hne
    obtain ⟨q, hq, h₁, h₂⟩ := (hl.sectorKnown_iff _).mp (h (DataRange.endSector x.knownData[0]) (by omega))
    rcases Nat.eq_zero_or_pos q with rfl | hq'
    · omega
    · have := hl.end_lt_start hlen hq hq'
      omega
  -- no batch comes after it
  have hone : x.knownData.length = 1 := by
    by_contra hne
    have h₁ := hl.end_lt_start hlen (show 1 < x.knownData.length by omega) (by decide)
    have h₂ := hl.start_lt_end (show 1 < x.knownData.length by omega)
    have h₃ := hl.inLoad _ (List.getElem_mem (show 1 < x.knownData.length by omega))
    omega
  unfold fillsLoad
  rw [getElem!_pos x.knownData 0 hlen]
  simp only [hone, hstart, beq_self_eq_true, Bool.true_and, beq_iff_eq]
  have : DataRange.endSector x.knownData[0] = x.knownData[0].startSector + bytesToChunks x.knownData[0].data.length :=
    rfl
  omega

end Known

/-- A byte is known exactly when its sector is. -/
theorem Inv.byteAt_isSome {s : EntryBatchData} (hs : Inv s) (i : Nat) :
    (s.byteAt i).isSome = s.sectorKnown (i / bytesPerSector) := by
  cases s with
  | complete data =>
    have hlen : data.length = sectorsPerLoad * bytesPerSector := hs
    unfold sectorKnown byteAt
    rw [Bool.eq_iff_iff, Option.isSome_iff_ne_none, Option.isSome_iff_ne_none, Ne, Ne,
      List.getElem?_eq_none_iff, List.getElem?_eq_none_iff, hlen, Nat.not_le, Nat.not_le,
      Nat.mul_lt_mul_right (by decide), Nat.div_lt_iff_lt_mul (by decide)]
  | incomplete x =>
    obtain ⟨-, hl, -⟩ := hs
    rw [Bool.eq_iff_iff, hl.sectorKnown_iff]
    constructor
    · intro h
      obtain ⟨a, ha⟩ := Option.isSome_iff_exists.mp h
      obtain ⟨q, hq, h₁, h₂⟩ := hl.holds_of_get ha
      exact ⟨q, hq, (Nat.le_div_iff_mul_le (by decide)).mpr h₁, (Nat.div_lt_iff_lt_mul (by decide)).mpr h₂⟩
    · rintro ⟨q, hq, h₁, h₂⟩
      exact hl.get_isSome_of_holds hq ((Nat.le_div_iff_mul_le (by decide)).mp h₁)
        ((Nat.div_lt_iff_lt_mul (by decide)).mp h₂)

/-- The sector range of a valid call ends where its bytes do. -/
theorem ValidInsert.end_sector {b : Nat} {d : List UInt8} (hv : ValidInsert b d) :
    (b + d.length) / bytesPerSector = b / bytesPerSector + d.length / bytesPerSector := by
  obtain ⟨hb, hd, -, -⟩ := hv
  unfold bytesPerSector at hb hd ⊢
  omega

/-- The sectors of a complete batch are all known. -/
theorem sectorKnown_complete {data : List UInt8} (hlen : data.length = bytesPerLoad) {k : Nat}
    (hk : k < sectorsPerLoad) : (EntryBatchData.complete data).sectorKnown k = true := by
  unfold sectorKnown byteAt
  rw [Option.isSome_iff_ne_none, Ne, List.getElem?_eq_none_iff, hlen, Nat.not_le,
    show bytesPerLoad = sectorsPerLoad * bytesPerSector from rfl]
  exact Nat.mul_lt_mul_of_pos_right hk (by decide)

/-- One `insert_data` call of a valid range from a reachable state: refused
exactly when it meets a known sector, and otherwise the new state is
reachable and knows the new bytes in front of the old. -/
theorem Inv.insertData_spec {s : EntryBatchData} (hs : Inv s) {b : Nat} {d : List UInt8}
    (hv : ValidInsert b d) :
    ((∃ msg, s.insertData b d = .error (.bail msg)) ↔
        ∃ k, b / bytesPerSector ≤ k ∧ k < (b + d.length) / bytesPerSector ∧ s.sectorKnown k = true) ∧
      ((∀ k, b / bytesPerSector ≤ k → k < (b + d.length) / bytesPerSector → s.sectorKnown k = false) →
        ∃ s' ready, s.insertData b d = .ok (s', ready) ∧ Inv s' ∧
          ∀ i, s'.byteAt i = ((Runs.Run.mk b d).get i).or (s.byteAt i)) := by
  obtain ⟨-, -, hSE, hload⟩ := hv.sectors
  rw [hv.end_sector]
  cases s with
  | complete data =>
    -- a complete batch knows the first sector of the range, and refuses it
    have hknown := sectorKnown_complete hs (show b / bytesPerSector < sectorsPerLoad by omega)
    refine ⟨⟨fun _ => ⟨_, Nat.le_refl _, hSE, hknown⟩, fun _ => insertData_complete hv.1 hv.2.1⟩,
      fun h => ?_⟩
    rw [h _ (Nat.le_refl _) hSE] at hknown
    cases hknown
  | incomplete x =>
    obtain ⟨hsub, hl, -⟩ := hs
    have hmiss := hl.misses_iff hSE
    refine ⟨⟨fun ⟨msg, hmsg⟩ => ?_, fun ⟨k, h₁, h₂, hk⟩ => insertData_of_meets hl hv fun hm => ?_⟩,
      fun h => insertData_of_misses hsub hl hv (hmiss.mpr h)⟩
    · by_contra hno
      obtain ⟨s', ready, hok, -⟩ := insertData_of_misses hsub hl hv (hmiss.mpr fun k h₁ h₂ => by
        rw [Bool.eq_false_iff]
        exact fun hk => hno ⟨k, h₁, h₂, hk⟩)
      rw [hok] at hmsg
      cases hmsg
    · rw [hmiss.mp hm k h₁ h₂] at hk
      cases hk

/-- The slice `[start, start + len)` of a list that holds it. -/
theorem sliceGet_eq_some {α : Type} {data : List α} {start len : Nat} (h : start + len ≤ data.length) :
    sliceGet data start (start + len) = some ((data.drop start).take len) := by
  unfold sliceGet
  rw [if_pos ⟨Nat.le_add_right _ _, h⟩, Nat.add_sub_cancel_left]

theorem length_take_drop {α : Type} {data : List α} {start len : Nat} (h : start + len ≤ data.length) :
    ((data.drop start).take len).length = len := by
  rw [List.length_take, List.length_drop]
  omega

/-- `get` of an incomplete batch: the bytes of the range when the partial
batch holding its first sector holds all of it, and nothing otherwise. -/
theorem KnownWF.get_spec {x : IncompleteData} (hl : KnownWF x.knownData) {b len : Nat} (hlen : 0 < len) :
    (x.get b len).isSome ↔ ∀ i, b ≤ i → i < b + len → ((EntryBatchData.incomplete x).byteAt i).isSome := by
  unfold IncompleteData.get
  cases hf : DataRange.find x.knownData (b / bytesPerSector) with
  | error j =>
    -- no batch holds the first sector, so the first byte is unknown
    simp only [Option.isSome_none, Bool.false_eq_true, false_iff, not_forall]
    refine ⟨b, Nat.le_refl _, by omega, fun h => ?_⟩
    obtain ⟨a, ha⟩ := Option.isSome_iff_exists.mp h
    obtain ⟨q, hq, h₁, h₂⟩ := hl.holds_of_get ha
    obtain ⟨-, hsplit⟩ := hl.find_error hf
    have h₁' := (Nat.le_div_iff_mul_le (by decide)).mpr h₁
    have h₂' := (Nat.div_lt_iff_lt_mul (by decide)).mpr h₂
    rcases Nat.lt_or_ge q j with hqj | hqj
    · have := (hsplit q hq).1 hqj
      omega
    · have := (hsplit q hq).2 hqj
      omega
  | ok k =>
    obtain ⟨hk, h₁, h₂⟩ := hl.find_ok hf
    dsimp only
    rw [getElem!_pos x.knownData k hk]
    have hstop := PartialBatch.toRun_stop (hl.aligned_get hk)
    unfold Runs.Run.stop at hstop
    simp only [PartialBatch.toRun_start, PartialBatch.toRun_data] at hstop
    have hb₁ := (Nat.le_div_iff_mul_le (by decide)).mp h₁
    have hb₂ := (Nat.div_lt_iff_lt_mul (by decide)).mp h₂
    constructor
    · -- the range lies within batch `k`
      intro h i hi₁ hi₂
      unfold sliceGet at h
      split at h
      · rename_i hin
        exact hl.get_isSome_of_holds hk (i := i) (by omega) (by omega)
      · cases h
    · -- otherwise the first byte after batch `k` is in the range, and no batch holds it
      intro h
      by_contra hout
      unfold sliceGet at hout
      split at hout
      · exact hout rfl
      rename_i hcond
      -- the byte after batch `k` is in the range
      have hknown := h (DataRange.endSector x.knownData[k] * bytesPerSector) (by omega) (by omega)
      obtain ⟨a, ha⟩ := Option.isSome_iff_exists.mp hknown
      obtain ⟨q, hq, hq₁, hq₂⟩ := hl.holds_of_get ha
      rcases Nat.lt_trichotomy q k with hlt | rfl | hlt
      · have := hl.end_lt_start hq hk hlt
        have := hl.start_lt_end hk
        have := Nat.mul_lt_mul_of_pos_right this (show 0 < bytesPerSector by decide)
        have := Nat.mul_le_mul_right bytesPerSector (Nat.le_of_lt ‹DataRange.endSector x.knownData[q] < x.knownData[k].startSector›)
        omega
      · omega
      · have := hl.end_lt_start hk hq hlt
        have := Nat.mul_lt_mul_of_pos_right this (show 0 < bytesPerSector by decide)
        omega

/-- The bytes `get` returns for an incomplete batch are the bytes it knows. -/
theorem KnownWF.get_bytes {x : IncompleteData} (hl : KnownWF x.knownData) {b len : Nat}
    {bytes : List UInt8} (h : x.get b len = some bytes) :
    bytes.length = len ∧
      ∀ (j : Nat) (hj : j < bytes.length), (EntryBatchData.incomplete x).byteAt (b + j) = some bytes[j] := by
  unfold IncompleteData.get at h
  cases hf : DataRange.find x.knownData (b / bytesPerSector) with
  | error j =>
    rw [hf] at h
    cases h
  | ok k =>
    obtain ⟨hk, h₁, -⟩ := hl.find_ok hf
    rw [hf] at h
    dsimp only at h
    rw [getElem!_pos x.knownData k hk] at h
    have hb₁ := (Nat.le_div_iff_mul_le (by decide)).mp h₁
    by_cases hin : b - x.knownData[k].startSector * bytesPerSector + len ≤ x.knownData[k].data.length
    · rw [sliceGet_eq_some hin, Option.some.injEq] at h
      subst h
      refine ⟨length_take_drop hin, fun j hj => ?_⟩
      have hj' : j < len := by rw [length_take_drop hin] at hj; exact hj
      -- batch `k` holds byte `b + j`, and it is the only batch that can
      refine (Runs.get_eq_some_iff hl.separated.disjoint).mpr
        ⟨x.knownData[k].toRun, List.mem_map_of_mem (List.getElem_mem hk), ?_⟩
      rw [List.getElem_take, List.getElem_drop]
      unfold Runs.Run.get
      rw [PartialBatch.toRun_start, PartialBatch.toRun_data, if_pos (by omega),
        show b + j - x.knownData[k].startSector * bytesPerSector =
          b - x.knownData[k].startSector * bytesPerSector + j by omega]
      exact List.getElem?_eq_getElem _
    · unfold sliceGet at h
      rw [if_neg fun h' => hin h'.2] at h
      cases h

/-- `get` of a range inside the load from a reachable state, with at least
one byte: some bytes exactly when every byte of the range is known, and then
the known ones. -/
theorem Inv.get_spec {s : EntryBatchData} (hs : Inv s) {b len : Nat} (hlen : 0 < len)
    (hload : b + len ≤ bytesPerLoad) :
    ∃ r, s.get b len = .ok r ∧ (r.isSome ↔ ∀ i, b ≤ i → i < b + len → (s.byteAt i).isSome) ∧
      ∀ bytes, r = some bytes →
        bytes.length = len ∧ ∀ (j : Nat) (hj : j < bytes.length), s.byteAt (b + j) = some bytes[j] := by
  unfold get
  rw [if_pos hload]
  cases s with
  | complete data =>
    have hlen' : b + len ≤ data.length := by rw [hs]; exact hload
    refine ⟨_, rfl, ?_, fun bytes h => ?_⟩
    · rw [sliceGet_eq_some hlen']
      refine ⟨fun _ i _ hi => ?_, fun _ => rfl⟩
      show (data[i]?).isSome
      rw [Option.isSome_iff_ne_none, Ne, List.getElem?_eq_none_iff]
      omega
    · rw [sliceGet_eq_some hlen', Option.some.injEq] at h
      subst h
      refine ⟨length_take_drop hlen', fun j hj => ?_⟩
      rw [List.getElem_take, List.getElem_drop]
      exact List.getElem?_eq_getElem _
  | incomplete x =>
    obtain ⟨-, hl, -⟩ := hs
    exact ⟨_, rfl, hl.get_spec hlen, fun bytes h => hl.get_bytes h⟩

/-- A reachable state is complete exactly when it knows every sector. -/
theorem Inv.complete_iff {s : EntryBatchData} (hs : Inv s) :
    (∃ data, s = .complete data) ↔ ∀ k < sectorsPerLoad, s.sectorKnown k = true := by
  cases s with
  | complete data => exact ⟨fun _ k hk => sectorKnown_complete hs hk, fun _ => ⟨data, rfl⟩⟩
  | incomplete x =>
    obtain ⟨-, hl, hfill⟩ := hs
    refine ⟨fun ⟨_, h⟩ => (by cases h), fun h => ?_⟩
    rw [hl.fillsLoad_of_known h] at hfill
    cases hfill

/-- A reachable state is determined by the bytes it knows. -/
theorem eq_of_byteAt {s t : EntryBatchData} (hs : Inv s) (ht : Inv t) (h : ∀ i, s.byteAt i = t.byteAt i) :
    s = t := by
  -- a state that knows what a complete one knows is complete
  have hknown : ∀ {u v : EntryBatchData}, Inv v → (∀ i, u.byteAt i = v.byteAt i) →
      (∀ k < sectorsPerLoad, u.sectorKnown k = true) → ∃ data, v = .complete data :=
    fun hv huv hu => hv.complete_iff.mpr fun k hk => by
      unfold sectorKnown
      rw [← huv]
      exact hu k hk
  cases s with
  | complete d =>
    cases t with
    | complete d' =>
      rw [List.ext_getElem? h]
    | incomplete y =>
      obtain ⟨_, hy⟩ := hknown ht h fun k hk => sectorKnown_complete hs hk
      cases hy
  | incomplete x =>
    cases t with
    | complete d' =>
      obtain ⟨_, hx⟩ := hknown hs (fun i => (h i).symm) fun k hk => sectorKnown_complete ht hk
      cases hx
    | incomplete y =>
      obtain ⟨hx₀, hx, -⟩ := hs
      obtain ⟨hy₀, hy, -⟩ := ht
      -- the partial batches are the canonical runs of what both know
      have hmap := Runs.Separated.ext hx.separated hy.separated h
      have hdata := List.map_injective_iff.mpr PartialBatch.toRun_injective hmap
      cases x
      cases y
      simp only at hx₀ hy₀ hdata
      rw [hx₀, hy₀, hdata]

/-- A sequence of `insert_data` calls from a state: a call that fails leaves
the state as it was. -/
def insertAll : EntryBatchData → List (Nat × List UInt8) → EntryBatchData
  | s, [] => s
  | s, (b, d) :: cs =>
    match s.insertData b d with
    | .ok (s', _) => insertAll s' cs
    | .error _ => insertAll s cs

theorem inv_new : Inv new := ⟨rfl, ⟨Runs.separated_nil, by simp, by simp⟩, rfl⟩

@[simp] theorem byteAt_new (i : Nat) : new.byteAt i = none := rfl

/-- A call that succeeds from a reachable state adds its bytes in front of
the old ones. -/
theorem Inv.insertData_ok {s s' : EntryBatchData} (hs : Inv s) {b : Nat} {d : List UInt8}
    (hv : ValidInsert b d) {ready : List Nat} (h : s.insertData b d = .ok (s', ready)) :
    Inv s' ∧ ∀ i, s'.byteAt i = ((Runs.Run.mk b d).get i).or (s.byteAt i) := by
  have hspec := hs.insertData_spec hv
  by_cases hmeet : ∃ k, b / bytesPerSector ≤ k ∧ k < (b + d.length) / bytesPerSector ∧ s.sectorKnown k = true
  · obtain ⟨msg, hmsg⟩ := hspec.1.mpr hmeet
    rw [hmsg] at h
    cases h
  · obtain ⟨s'', ready', hok, hinv, hbytes⟩ := hspec.2 fun k h₁ h₂ => by
      rw [Bool.eq_false_iff]
      exact fun hk => hmeet ⟨k, h₁, h₂, hk⟩
    rw [hok] at h
    cases h
    exact ⟨hinv, hbytes⟩

/-- Every state a sequence of valid calls reaches from a reachable one is
reachable. -/
theorem inv_insertAll : ∀ (cs : List (Nat × List UInt8)) {s : EntryBatchData}, Inv s →
    (∀ c ∈ cs, ValidInsert c.1 c.2) → Inv (insertAll s cs)
  | [], _, hs, _ => hs
  | (b, d) :: cs, s, hs, hv => by
    have hcs : ∀ c ∈ cs, ValidInsert c.1 c.2 := fun c hc => hv c (List.mem_cons_of_mem _ hc)
    unfold insertAll
    split
    · rename_i s' ready h
      exact inv_insertAll cs (hs.insertData_ok (hv _ List.mem_cons_self) h).1 hcs
    · exact inv_insertAll cs hs hcs

/-- Calls of pairwise disjoint ranges that meet nothing the state knows all
succeed, and the state ends knowing their bytes in front of its own. -/
theorem byteAt_insertAll : ∀ (cs : List (Nat × List UInt8)) {s : EntryBatchData}, Inv s →
    (∀ c ∈ cs, ValidInsert c.1 c.2) →
    (cs.map fun c => Runs.Run.mk c.1 c.2).Pairwise Runs.Run.Disjoint →
    (∀ c ∈ cs, ∀ i, (Runs.Run.mk c.1 c.2).get i = none ∨ s.byteAt i = none) →
    ∀ i, (insertAll s cs).byteAt i = (Runs.get (cs.map fun c => Runs.Run.mk c.1 c.2) i).or (s.byteAt i)
  | [], _, _, _, _, _, _ => rfl
  | (b, d) :: cs, s, hs, hv, hpw, hdis, i => by
    rw [List.map_cons, List.pairwise_cons] at hpw
    have hcs : ∀ c ∈ cs, ValidInsert c.1 c.2 := fun c hc => hv c (List.mem_cons_of_mem _ hc)
    have hbd : ValidInsert b d := hv (b, d) List.mem_cons_self
    -- the first call meets no known sector, so it succeeds
    obtain ⟨s', ready, hok, hinv, hbytes⟩ := (hs.insertData_spec hbd).2 fun k h₁ h₂ => by
      rw [Bool.eq_false_iff]
      intro hk
      have hnew : ((Runs.Run.mk b d).get (k * bytesPerSector)).isSome := by
        rw [Runs.Run.get_isSome_iff, hbd.end_sector] at *
        dsimp only [Runs.Run.stop]
        obtain ⟨hb, hd, -, -⟩ := hbd
        unfold bytesPerSector at *
        omega
      rcases hdis (b, d) List.mem_cons_self (k * bytesPerSector) with h | h
      · rw [h] at hnew
        cases hnew
      · unfold sectorKnown at hk
        rw [h] at hk
        cases hk
    -- the later ranges meet neither the first one nor the state
    have hdis' : ∀ c ∈ cs, ∀ i, (Runs.Run.mk c.1 c.2).get i = none ∨ s'.byteAt i = none := by
      intro c hc i
      rcases (hpw.1 _ (List.mem_map_of_mem hc)).get_eq_none i with h | h
      · rcases hdis c (List.mem_cons_of_mem _ hc) i with h' | h'
        · exact Or.inl h'
        · exact Or.inr (by rw [hbytes, h, h', Option.none_or])
      · exact Or.inl h
    -- the first range and the later ones hold no byte in common
    have hcomm : Runs.get (cs.map fun c => Runs.Run.mk c.1 c.2) i = none ∨ (Runs.Run.mk b d).get i = none := by
      cases hget : Runs.get (cs.map fun c => Runs.Run.mk c.1 c.2) i with
      | none => exact Or.inl rfl
      | some a =>
        obtain ⟨r, hr, hri⟩ := Runs.exists_of_get hget
        rcases (hpw.1 r hr).get_eq_none i with h | h
        · exact Or.inr h
        · rw [h] at hri
          cases hri
    unfold insertAll
    rw [hok]
    dsimp only
    rw [byteAt_insertAll cs hinv hcs hpw.2 hdis' i, hbytes, List.map_cons, Runs.get_cons,
      ← Option.or_assoc, Runs.or_comm_of_none hcomm]

/-- Inserting pairwise disjoint ranges into `new`, in any order, ends in the
same state. -/
theorem insertAll_perm {cs cs' : List (Nat × List UInt8)} (hp : cs.Perm cs')
    (hv : ∀ c ∈ cs, ValidInsert c.1 c.2)
    (hpw : cs.Pairwise fun c c' => c.1 + c.2.length ≤ c'.1 ∨ c'.1 + c'.2.length ≤ c.1) :
    insertAll new cs = insertAll new cs' := by
  have hv' : ∀ c ∈ cs', ValidInsert c.1 c.2 := fun c hc => hv c (hp.mem_iff.mpr hc)
  have hmap := hp.map fun c => Runs.Run.mk c.1 c.2
  have hpw₁ : (cs.map fun c => Runs.Run.mk c.1 c.2).Pairwise Runs.Run.Disjoint := List.pairwise_map.mpr hpw
  have hpw₂ := (hmap.pairwise_iff Runs.Run.Disjoint.symm).mp hpw₁
  refine eq_of_byteAt (inv_insertAll cs inv_new hv) (inv_insertAll cs' inv_new hv') fun i => ?_
  rw [byteAt_insertAll cs inv_new hv hpw₁ (fun _ _ _ => Or.inr rfl) i,
    byteAt_insertAll cs' inv_new hv' hpw₂ (fun _ _ _ => Or.inr rfl) i, Runs.get_perm hmap hpw₁ i]

/-- From `new`, over every sequence of `insert_data` calls of whole, non-empty
sectors inside the load: a further such call is refused exactly when it
meets a known sector, and otherwise succeeds; after a success the new bytes
are known and all others are as before; `get` of a non-empty range inside
the load returns bytes exactly when all its sectors are known, and then the
known ones; the state is complete exactly when all sectors are known; and
disjoint ranges inserted in any order end in the same state. -/
theorem insertData_partial_map :
    (∀ cs : List (Nat × List UInt8), (∀ c ∈ cs, ValidInsert c.1 c.2) →
      (∀ b d, ValidInsert b d →
        ((∃ msg, (insertAll new cs).insertData b d = .error (.bail msg)) ↔
          ∃ k, b / bytesPerSector ≤ k ∧ k < (b + d.length) / bytesPerSector ∧
            (insertAll new cs).sectorKnown k = true) ∧
        ((¬ ∃ k, b / bytesPerSector ≤ k ∧ k < (b + d.length) / bytesPerSector ∧
            (insertAll new cs).sectorKnown k = true) →
          ∃ s' ready, (insertAll new cs).insertData b d = .ok (s', ready)) ∧
        (∀ s' ready, (insertAll new cs).insertData b d = .ok (s', ready) →
          ∀ i, s'.byteAt i = if b ≤ i ∧ i < b + d.length then d[i - b]? else (insertAll new cs).byteAt i)) ∧
      (∀ b len, 0 < len → b + len ≤ bytesPerLoad →
        ∃ r, (insertAll new cs).get b len = .ok r ∧
          (r.isSome ↔ ∀ k, b / bytesPerSector ≤ k → k * bytesPerSector < b + len →
            (insertAll new cs).sectorKnown k = true) ∧
          ∀ bytes, r = some bytes → bytes.length = len ∧
            ∀ (j : Nat) (hj : j < bytes.length), (insertAll new cs).byteAt (b + j) = some bytes[j]) ∧
      ((∃ data, insertAll new cs = .complete data) ↔
        ∀ k < sectorsPerLoad, (insertAll new cs).sectorKnown k = true)) ∧
    (∀ cs cs' : List (Nat × List UInt8), cs.Perm cs' → (∀ c ∈ cs, ValidInsert c.1 c.2) →
      (cs.Pairwise fun c c' => c.1 + c.2.length ≤ c'.1 ∨ c'.1 + c'.2.length ≤ c.1) →
      insertAll new cs = insertAll new cs') := by
  refine ⟨fun cs hcs => ?_, fun cs cs' hp hv hpw => insertAll_perm hp hv hpw⟩
  have hs := inv_insertAll cs inv_new hcs
  refine ⟨fun b d hv => ?_, fun b len hlen hload => ?_, hs.complete_iff⟩
  · have hspec := hs.insertData_spec hv
    refine ⟨hspec.1, fun hno => ?_, fun s' ready h i => ?_⟩
    · obtain ⟨s', ready, hok, -⟩ := hspec.2 fun k h₁ h₂ => by
        rw [Bool.eq_false_iff]
        exact fun hk => hno ⟨k, h₁, h₂, hk⟩
      exact ⟨s', ready, hok⟩
    · rw [(hs.insertData_ok hv h).2 i, Runs.Run.get_or_eq_ite]
      rfl
  · obtain ⟨r, hr, hsome, hbytes⟩ := hs.get_spec hlen hload
    refine ⟨r, hr, hsome.trans ⟨fun h k h₁ h₂ => ?_, fun h i h₁ h₂ => ?_⟩, hbytes⟩
    · -- a sector of the range is known through its first byte in the range
      rcases Nat.le_total b (k * bytesPerSector) with hle | hle
      · have := h (k * bytesPerSector) hle h₂
        rwa [hs.byteAt_isSome, Nat.mul_div_cancel _ (by decide)] at this
      · have := h b (Nat.le_refl _) (by omega)
        rwa [hs.byteAt_isSome, Nat.le_antisymm h₁ ((Nat.le_div_iff_mul_le (by decide)).mpr hle)] at this
    · rw [hs.byteAt_isSome]
      exact h _ (Nat.div_le_div_right h₁) (Nat.lt_of_le_of_lt (Nat.div_mul_le_self i bytesPerSector) h₂)

/-- `get` of an empty range of `new` returns nothing, though the range has
no sector that is not known. -/
theorem get_empty_range :
    (∀ k, 0 / bytesPerSector ≤ k → k * bytesPerSector < 0 + 0 → new.sectorKnown k = true) ∧
      new.get 0 0 = .ok none :=
  ⟨fun _ _ h => absurd h (Nat.not_lt_zero _), rfl⟩

end EntryBatchData

end ZgStorage
