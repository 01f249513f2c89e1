import ZgStorage.LogStore.ChunkData
import ZgStorage.Framework.Except

/-!
# `insert_data` keeps a partial map of the load

What an `EntryBatchData` knows is `byteAt`: its partial batches read as runs
of bytes (`Runs.get`). The partial batches of a state that `insert_data`
reaches are separated, of whole sectors and inside the load (`KnownWF`), so
`find` answers the run that holds a sector, or the position between the
runs below and above it.

* `KnownWF.find_ok`, `KnownWF.find_error`: what `find` answers;
* `mergeAt_spec`: the four merge cases put the new run between the runs
  below and above it, keeping the list separated;
* `insertData_of_disjoint`, `insertData_of_overlap`: a range that meets no
  known sector is added, one that meets a known sector is refused.
-/

namespace ZgStorage

namespace PartialBatch

/-- The bytes of a partial batch, as a run of the load. -/
def toRun (p : PartialBatch) : Runs.Run UInt8 := ⟨p.startSector * bytesPerSector, p.data⟩

@[simp] theorem toRun_start (p : PartialBatch) : p.toRun.start = p.startSector * bytesPerSector := rfl

@[simp] theorem toRun_data (p : PartialBatch) : p.toRun.data = p.data := rfl

theorem toRun_injective : Function.Injective toRun := by
  intro p q h
  have hs : p.startSector * bytesPerSector = q.startSector * bytesPerSector := congrArg Runs.Run.start h
  have hd : p.data = q.data := congrArg Runs.Run.data h
  cases p
  cases q
  simp only [bytesPerSector] at hs hd
  rw [show _ = _ from Nat.eq_of_mul_eq_mul_right (by decide) hs, hd]

@[simp] theorem startSector_eq (p : PartialBatch) : DataRange.startSector p = p.startSector := rfl

/-- The end sector of a batch of whole sectors. -/
theorem endSector_eq {p : PartialBatch} (hp : p.data.length % bytesPerSector = 0) :
    DataRange.endSector p = p.startSector + p.data.length / bytesPerSector := by
  show p.startSector + bytesToChunks p.data.length = _
  unfold bytesToChunks chunkSize
  unfold bytesPerSector at hp ⊢
  rw [if_pos hp]

/-- A batch of whole sectors stops at the first byte of its end sector. -/
theorem toRun_stop {p : PartialBatch} (hp : p.data.length % bytesPerSector = 0) :
    p.toRun.stop = DataRange.endSector p * bytesPerSector := by
  rw [endSector_eq hp, Runs.Run.stop, toRun_start, toRun_data]
  unfold bytesPerSector at hp ⊢
  omega

end PartialBatch

namespace EntryBatchData

/-- Byte `i` of the load, if the state knows it. -/
def byteAt : EntryBatchData → Nat → Option UInt8
  | .complete data, i => data[i]?
  | .incomplete x, i => Runs.get (x.knownData.map PartialBatch.toRun) i

/-- Sector `k` of the load is known. -/
def sectorKnown (s : EntryBatchData) (k : Nat) : Bool := (s.byteAt (k * bytesPerSector)).isSome

/-- The partial batches of a state that `insert_data` reaches: separated,
of whole sectors, and inside the load. -/
structure KnownWF (list : List PartialBatch) : Prop where
  separated : Runs.Separated (list.map PartialBatch.toRun)
  aligned : ∀ p ∈ list, p.data.length % bytesPerSector = 0
  inLoad : ∀ p ∈ list, DataRange.endSector p ≤ sectorsPerLoad

/-- What the states that `insert_data` reaches from `new` satisfy: a
complete batch holds the whole load, and an incomplete one has no subtrees
and well-formed partial batches that do not fill the load. -/
def Inv : EntryBatchData → Prop
  | .complete data => data.length = bytesPerLoad
  | .incomplete x => x.subtrees = [] ∧ KnownWF x.knownData ∧ fillsLoad x.knownData = false

section Find

variable {l : List PartialBatch} (hl : KnownWF l)
include hl

theorem KnownWF.ne_nil {k : Nat} (hk : k < l.length) : l[k].data ≠ [] :=
  hl.separated.ne_nil _ (List.mem_map_of_mem (List.getElem_mem hk))

theorem KnownWF.aligned_get {k : Nat} (hk : k < l.length) : l[k].data.length % bytesPerSector = 0 :=
  hl.aligned _ (List.getElem_mem hk)

/-- A batch of the list holds the sector it starts at. -/
theorem KnownWF.start_lt_end {k : Nat} (hk : k < l.length) :
    l[k].startSector < DataRange.endSector l[k] := by
  have hne := List.length_pos_of_ne_nil (hl.ne_nil hk)
  have hal := hl.aligned_get hk
  rw [PartialBatch.endSector_eq hal]
  unfold bytesPerSector at hal ⊢
  omega

/-- In sectors: each batch ends strictly before every later one starts. -/
theorem KnownWF.end_lt_start {k k' : Nat} (hk : k < l.length) (hk' : k' < l.length) (hlt : k < k') :
    DataRange.endSector l[k] < l[k'].startSector := by
  have hpw := List.pairwise_iff_getElem.mp hl.separated.pairwise k k' (by simpa using hk)
    (by simpa using hk') hlt
  simp only [List.getElem_map, PartialBatch.toRun_stop (hl.aligned_get hk),
    PartialBatch.toRun_start] at hpw
  exact Nat.lt_of_mul_lt_mul_right hpw

theorem KnownWF.sorted : l.Pairwise fun p q => DataRange.startSector p < DataRange.startSector q := by
  refine List.pairwise_iff_getElem.mpr fun k k' hk hk' hlt => ?_
  have := hl.end_lt_start hk hk' hlt
  have := hl.start_lt_end hk
  simp only [PartialBatch.startSector_eq]
  omega

/-- `find` answers `ok i` for the batch `i` that holds the sector. -/
theorem KnownWF.find_ok {x i : Nat} (h : DataRange.find l x = .ok i) :
    ∃ hi : i < l.length, l[i].startSector ≤ x ∧ x < DataRange.endSector l[i] := by
  unfold DataRange.find at h
  cases hs : Runs.binarySearchByKey DataRange.startSector x l with
  | ok i' =>
    obtain ⟨hi', hkey⟩ := Runs.binarySearchByKey_ok hs
    simp only [hs] at h
    split at h
    · cases h
      rw [getElem!_pos l i hi'] at *
      exact ⟨hi', Nat.le_of_eq hkey, by assumption⟩
    · cases h
  | error j =>
    obtain ⟨hj, hbelow⟩ := Runs.binarySearchByKey_error hl.sorted hs
    cases j with
    | zero => simp only [hs] at h; cases h
    | succ j =>
      simp only [hs, Nat.add_sub_cancel] at h
      split at h
      · cases h
        rw [getElem!_pos l i (by omega)] at *
        exact ⟨by omega, Nat.le_of_lt ((hbelow i (by omega)).1 (by omega)), by assumption⟩
      · cases h

/-- `find` answers `error j` for a sector no batch holds: the `j` batches
below end at or before it, and the others start after it. -/
theorem KnownWF.find_error {x j : Nat} (h : DataRange.find l x = .error j) :
    j ≤ l.length ∧ ∀ (k : Nat) (hk : k < l.length),
      (k < j → DataRange.endSector l[k] ≤ x) ∧ (j ≤ k → x < l[k].startSector) := by
  unfold DataRange.find at h
  cases hs : Runs.binarySearchByKey DataRange.startSector x l with
  | ok i' =>
    -- the batch starting at the sector holds it
    obtain ⟨hi', hkey⟩ := Runs.binarySearchByKey_ok hs
    simp only [hs] at h
    rw [getElem!_pos l i' hi'] at h
    have := hl.start_lt_end hi'
    simp only [PartialBatch.startSector_eq] at hkey
    rw [if_pos (by omega)] at h
    cases h
  | error j' =>
    obtain ⟨hj', hbelow⟩ := Runs.binarySearchByKey_error hl.sorted hs
    cases j' with
    | zero =>
      simp only [hs] at h
      cases h
      exact ⟨Nat.zero_le _, fun k hk => ⟨fun h => absurd h (Nat.not_lt_zero k),
        fun _ => (hbelow k hk).2 (Nat.zero_le _)⟩⟩
    | succ i =>
      simp only [hs, Nat.add_sub_cancel] at h
      rw [getElem!_pos l i (by omega)] at h
      split at h
      · cases h
      · rename_i hend
        cases h
        refine ⟨hj', fun k hk => ⟨fun hkj => ?_, fun hkj => (hbelow k hk).2 hkj⟩⟩
        -- the batch just below ends at or before the sector, and the earlier ones before it
        rcases Nat.lt_or_ge k i with hki | hki
        · have := hl.end_lt_start hk (by omega) hki
          have := (hbelow i (by omega)).1 (by omega)
          simp only [PartialBatch.startSector_eq] at this
          omega
        · obtain rfl : k = i := by omega
          omega

end Find

theorem KnownWF.sublist {l l' : List PartialBatch} (hs : l.Sublist l') (h : KnownWF l') : KnownWF l :=
  ⟨h.separated.sublist (hs.map _), fun p hp => h.aligned p (hs.subset hp),
    fun p hp => h.inLoad p (hs.subset hp)⟩

section Merge

/-- Position `j` of the list lies between the sectors below `S` and those
from `E` on: the batches before it end at or before `S`, the others start at
or after `E`. -/
def Splits (l : List PartialBatch) (j S E : Nat) : Prop :=
  j ≤ l.length ∧ ∀ (k : Nat) (hk : k < l.length),
    (k < j → DataRange.endSector l[k] ≤ S) ∧ (j ≤ k → E ≤ l[k].startSector)

/-- A list read with one more batch, put after the batches that end at or
before its start. -/
theorem view_insert {pre post : List PartialBatch} {m : PartialBatch}
    (hal : ∀ q ∈ pre, q.data.length % bytesPerSector = 0)
    (hpre : ∀ q ∈ pre, DataRange.endSector q ≤ m.startSector) (i : Nat) :
    Runs.get ((pre ++ m :: post).map PartialBatch.toRun) i =
      (m.toRun.get i).or (Runs.get ((pre ++ post).map PartialBatch.toRun) i) := by
  rw [List.map_append, List.map_cons, List.map_append]
  refine Runs.get_insert (fun r hr => ?_) i
  obtain ⟨q, hq, rfl⟩ := List.mem_map.mp hr
  rw [PartialBatch.toRun_stop (hal q hq), PartialBatch.toRun_start]
  exact Nat.mul_le_mul_right _ (hpre q hq)

/-- A batch put between two parts of a well-formed list, away from both,
keeps it well formed. -/
theorem KnownWF.insert {pre post : List PartialBatch} {m : PartialBatch} (h : KnownWF (pre ++ post))
    (hne : m.data ≠ []) (hal : m.data.length % bytesPerSector = 0)
    (hload : DataRange.endSector m ≤ sectorsPerLoad) (hpre : ∀ q ∈ pre, DataRange.endSector q < m.startSector)
    (hpost : ∀ q ∈ post, DataRange.endSector m < q.startSector) : KnownWF (pre ++ m :: post) := by
  have hmem : ∀ q ∈ pre ++ m :: post, q = m ∨ q ∈ pre ++ post := fun q hq => by
    rcases List.mem_append.mp hq with hq | hq
    · exact Or.inr (List.mem_append_left _ hq)
    · rcases List.mem_cons.mp hq with rfl | hq
      · exact Or.inl rfl
      · exact Or.inr (List.mem_append_right _ hq)
  refine ⟨?_, fun q hq => ?_, fun q hq => ?_⟩
  · rw [List.map_append, List.map_cons]
    refine Runs.Separated.insert (by rw [← List.map_append]; exact h.separated) hne
      (fun r hr => ?_) (fun r hr => ?_)
    · obtain ⟨q, hq, rfl⟩ := List.mem_map.mp hr
      rw [PartialBatch.toRun_stop (h.aligned q (List.mem_append_left _ hq)), PartialBatch.toRun_start]
      exact Nat.mul_lt_mul_of_pos_right (hpre q hq) (by decide)
    · obtain ⟨q, hq, rfl⟩ := List.mem_map.mp hr
      rw [PartialBatch.toRun_stop hal, PartialBatch.toRun_start]
      exact Nat.mul_lt_mul_of_pos_right (hpost q hq) (by decide)
  · rcases hmem q hq with rfl | hq
    · exact hal
    · exact h.aligned q hq
  · rcases hmem q hq with rfl | hq
    · exact hload
    · exact h.inLoad q hq

/-- A batch extended on the right reads as the batch, then the new bytes
from its end sector. -/
theorem toRun_get_append {p : PartialBatch} (hal : p.data.length % bytesPerSector = 0)
    (d : List UInt8) (i : Nat) :
    (PartialBatch.mk p.startSector (p.data ++ d)).toRun.get i =
      (p.toRun.get i).or ((Runs.Run.mk (DataRange.endSector p * bytesPerSector) d).get i) := by
  rw [← PartialBatch.toRun_stop hal]
  exact Runs.Run.get_append _ p.data d i

/-- New bytes put before a batch that starts where they end read as the
bytes, then the batch. -/
theorem toRun_get_prepend {q : PartialBatch} {S : Nat} {d : List UInt8}
    (hq : S * bytesPerSector + d.length = q.startSector * bytesPerSector) (i : Nat) :
    (PartialBatch.mk S (d ++ q.data)).toRun.get i =
      ((Runs.Run.mk (S * bytesPerSector) d).get i).or (q.toRun.get i) := by
  show (Runs.Run.mk (S * bytesPerSector) (d ++ q.data)).get i = _
  rw [Runs.Run.get_append, hq]
  rfl

variable {l : List PartialBatch} (hl : KnownWF l)
include hl

/-- The batches before position `k` end strictly before batch `k` starts. -/
theorem KnownWF.end_lt_of_mem_take {k : Nat} (hk : k < l.length) :
    ∀ q ∈ l.take k, DataRange.endSector q < l[k].startSector := by
  intro q hq
  obtain ⟨k', hk', rfl⟩ := List.mem_take_iff_getElem.mp hq
  exact hl.end_lt_start _ hk (by omega)

/-- The batches after position `k` start strictly after batch `k` ends. -/
theorem KnownWF.lt_start_of_mem_drop {k : Nat} (hk : k < l.length) :
    ∀ q ∈ l.drop (k + 1), DataRange.endSector l[k] < q.startSector := by
  intro q hq
  obtain ⟨k', hk', rfl⟩ := List.mem_drop_iff_getElem.mp hq
  exact hl.end_lt_start hk _ (by omega)

/-- With no merge into the batch before position `j`, the batches before
`j` end strictly before `S`. -/
theorem Splits.end_lt {j S E : Nat} (hs : Splits l j S E)
    (hp : (j != 0 && S == DataRange.endSector l[j - 1]!) = false) :
    ∀ q ∈ l.take j, DataRange.endSector q < S := by
  intro q hq
  have hj := hs.1
  obtain ⟨k, hk, rfl⟩ := List.mem_take_iff_getElem.mp hq
  have hle := (hs.2 k (by omega)).1 (by omega)
  rcases Nat.lt_or_ge k (j - 1) with hlt | hge
  · -- an earlier batch ends before the one just below `j` starts
    have h₁ := hl.end_lt_start (by omega) (show j - 1 < l.length by omega) hlt
    have h₂ := hl.start_lt_end (show j - 1 < l.length by omega)
    have h₃ := (hs.2 (j - 1) (by omega)).1 (by omega)
    omega
  · obtain rfl : k = j - 1 := by omega
    rw [getElem!_pos l (j - 1) (by omega)] at hp
    simp only [Bool.and_eq_false_iff, bne_eq_false_iff_eq, beq_eq_false_iff_ne] at hp
    omega

/-- With no merge into the batch at position `j`, the batches from `j` on
start strictly after `E`. -/
theorem Splits.lt_start {j S E : Nat} (hs : Splits l j S E)
    (hn : (j != l.length && E == l[j]!.startSector) = false) :
    ∀ q ∈ l.drop j, E < q.startSector := by
  intro q hq
  have hj := hs.1
  obtain ⟨k, hk, rfl⟩ := List.mem_drop_iff_getElem.mp hq
  have hle := (hs.2 (j + k) (by omega)).2 (by omega)
  rcases Nat.eq_zero_or_pos k with rfl | hpos
  · rw [getElem!_pos l j (by omega)] at hn
    simp only [Bool.and_eq_false_iff, bne_eq_false_iff_eq, beq_eq_false_iff_ne] at hn
    simp only [Nat.add_zero] at hle ⊢
    omega
  · -- a later batch starts after the one at `j` ends
    have h₁ := hl.end_lt_start (show j < l.length by omega) (show j + k < l.length by omega) (by omega)
    have h₂ := hl.start_lt_end (show j < l.length by omega)
    have h₃ := (hs.2 j (by omega)).2 (Nat.le_refl _)
    omega

/-- The four merge cases put the new bytes between the batches before and
after them: the list stays well formed and reads as the new bytes, then the
old list. -/
theorem mergeAt_spec {j S E : Nat} (hs : Splits l j S E) (hSE : S < E) {d : List UInt8}
    (hd : d.length = (E - S) * bytesPerSector) (hload : E ≤ sectorsPerLoad) :
    KnownWF (mergeAt l j S E d).1 ∧ ∀ i, Runs.get ((mergeAt l j S E d).1.map PartialBatch.toRun) i =
      ((Runs.Run.mk (S * bytesPerSector) d).get i).or (Runs.get (l.map PartialBatch.toRun) i) := by
  have hj := hs.1
  have hne : d ≠ [] := List.ne_nil_of_length_pos (by rw [hd]; unfold bytesPerSector; omega)
  have hal : d.length % bytesPerSector = 0 := by rw [hd]; exact Nat.mul_mod_left _ _
  have htake : ∀ k, ∀ q ∈ l.take k, q.data.length % bytesPerSector = 0 :=
    fun k q hq => hl.aligned q (List.take_subset _ _ hq)
  unfold mergeAt
  cases hp : (j != 0 && S == DataRange.endSector l[j - 1]!) <;>
    cases hn : (j != l.length && E == l[j]!.startSector)
  · -- a batch of its own, at position `j`
    dsimp only
    have hpre := Splits.end_lt hl hs hp
    have hpost := Splits.lt_start hl hs hn
    have hm : DataRange.endSector (PartialBatch.mk S d) = E := by
      rw [PartialBatch.endSector_eq (p := ⟨S, d⟩) hal]
      dsimp only
      rw [hd]
      unfold bytesPerSector
      omega
    rw [Runs.insertIdx_eq_take_drop _ l j hj]
    refine ⟨KnownWF.insert (by rw [List.take_append_drop]; exact hl) hne hal (by rw [hm]; exact hload)
      hpre (by rw [hm]; exact hpost), fun i => ?_⟩
    rw [view_insert (htake j) (fun q hq => Nat.le_of_lt (hpre q hq)), List.take_append_drop]
    rfl
  · -- merged into the batch at position `j`, which starts at `E`
    dsimp only
    simp only [Bool.and_eq_true, bne_iff_ne, ne_eq, beq_iff_eq] at hn
    obtain ⟨hjl, hE⟩ := hn
    have hlt : j < l.length := by omega
    rw [getElem!_pos l j hlt] at hE ⊢
    have hqal := hl.aligned_get hlt
    have hdecomp : l = l.take j ++ l[j] :: l.drop (j + 1) := by
      conv_lhs => rw [← List.take_append_drop j l]
      rw [List.drop_eq_getElem_cons hlt]
    have hpre := Splits.end_lt hl hs hp
    have hpost := hl.lt_start_of_mem_drop hlt
    have hmal : (d ++ l[j].data).length % bytesPerSector = 0 := by
      rw [List.length_append]
      unfold bytesPerSector at hal hqal ⊢
      omega
    have hm : DataRange.endSector (PartialBatch.mk S (d ++ l[j].data)) = DataRange.endSector l[j] := by
      rw [PartialBatch.endSector_eq (p := ⟨_, _⟩) hmal, PartialBatch.endSector_eq hqal, ← hE]
      dsimp only
      rw [List.length_append, hd]
      unfold bytesPerSector at hqal ⊢
      omega
    have hsub : KnownWF (l.take j ++ l.drop (j + 1)) :=
      (show KnownWF (l.take j ++ l[j] :: l.drop (j + 1)) by rw [← hdecomp]; exact hl).sublist
        (List.Sublist.append (List.Sublist.refl _) (List.sublist_cons_self _ _))
    rw [List.set_eq_take_append_cons_drop, if_pos hlt]
    refine ⟨KnownWF.insert hsub (by simp [hne]) hmal (by rw [hm]; exact hl.inLoad _ (List.getElem_mem hlt))
      hpre (by rw [hm]; exact hpost), fun i => ?_⟩
    · rw [view_insert (htake j) (fun q hq => Nat.le_of_lt (hpre q hq)),
        toRun_get_prepend (by rw [hd, ← hE]; unfold bytesPerSector; omega)]
      conv_rhs => rw [hdecomp]
      rw [view_insert (htake j) (fun q hq => by have := hpre q hq; omega), Option.or_assoc]
  · -- merged into the batch before position `j`, which ends at `S`
    dsimp only
    simp only [Bool.and_eq_true, bne_iff_ne, ne_eq, beq_iff_eq] at hp
    obtain ⟨hj0, hS⟩ := hp
    have hlt : j - 1 < l.length := by omega
    rw [getElem!_pos l (j - 1) hlt] at hS ⊢
    have hpal := hl.aligned_get hlt
    have hdecomp : l = l.take (j - 1) ++ l[j - 1] :: l.drop j := by
      conv_lhs => rw [← List.take_append_drop (j - 1) l]
      rw [List.drop_eq_getElem_cons hlt, show j - 1 + 1 = j by omega]
    have hpre := hl.end_lt_of_mem_take hlt
    have hpost := Splits.lt_start hl hs hn
    have hmal : (l[j - 1].data ++ d).length % bytesPerSector = 0 := by
      rw [List.length_append]
      unfold bytesPerSector at hal hpal ⊢
      omega
    have hm : DataRange.endSector (PartialBatch.mk l[j - 1].startSector (l[j - 1].data ++ d)) = E := by
      rw [PartialBatch.endSector_eq (p := ⟨_, _⟩) hmal]
      rw [PartialBatch.endSector_eq hpal] at hS
      dsimp only
      rw [List.length_append, hd]
      unfold bytesPerSector at hpal hS ⊢
      omega
    have hsub : KnownWF (l.take (j - 1) ++ l.drop j) :=
      (show KnownWF (l.take (j - 1) ++ l[j - 1] :: l.drop j) by rw [← hdecomp]; exact hl).sublist
        (List.Sublist.append (List.Sublist.refl _) (List.sublist_cons_self _ _))
    rw [List.set_eq_take_append_cons_drop, if_pos hlt, show j - 1 + 1 = j by omega]
    refine ⟨KnownWF.insert hsub (by simp [hne]) hmal (by rw [hm]; exact hload) hpre
      (by rw [hm]; exact hpost), fun i => ?_⟩
    · -- the batch before and the new bytes meet at `S`, so at most one holds a byte
      have hdis : l[j - 1].toRun.Disjoint (Runs.Run.mk (S * bytesPerSector) d) :=
        Or.inl (by rw [PartialBatch.toRun_stop hpal, hS])
      rw [view_insert (m := ⟨l[j - 1].startSector, l[j - 1].data ++ d⟩) (htake (j - 1))
        (fun q hq => Nat.le_of_lt (hpre q hq)), toRun_get_append hpal, ← hS]
      conv_rhs => rw [hdecomp]
      rw [view_insert (htake (j - 1)) (fun q hq => Nat.le_of_lt (hpre q hq)),
        Runs.or_comm_of_none (hdis.get_eq_none i), Option.or_assoc]
  · -- merged with both, which become one batch
    dsimp only
    simp only [Bool.and_eq_true, bne_iff_ne, ne_eq, beq_iff_eq] at hp hn
    obtain ⟨hj0, hS⟩ := hp
    obtain ⟨hjl, hE⟩ := hn
    have hlt₁ : j - 1 < l.length := by omega
    have hlt : j < l.length := by omega
    rw [getElem!_pos l (j - 1) hlt₁] at hS ⊢
    rw [getElem!_pos l j hlt] at hE ⊢
    have hpal := hl.aligned_get hlt₁
    have hqal := hl.aligned_get hlt
    have hdecomp : l = l.take (j - 1) ++ l[j - 1] :: l[j] :: l.drop (j + 1) := by
      conv_lhs => rw [← List.take_append_drop (j - 1) l]
      rw [List.drop_eq_getElem_cons hlt₁, show j - 1 + 1 = j by omega, List.drop_eq_getElem_cons hlt]
    have hpre := hl.end_lt_of_mem_take hlt₁
    have hpost := hl.lt_start_of_mem_drop hlt
    have hpdal : (l[j - 1].data ++ d).length % bytesPerSector = 0 := by
      rw [List.length_append]
      unfold bytesPerSector at hal hpal ⊢
      omega
    have hmal : (l[j - 1].data ++ d ++ l[j].data).length % bytesPerSector = 0 := by
      rw [List.length_append, List.length_append]
      unfold bytesPerSector at hal hpal hqal ⊢
      omega
    have hpd : DataRange.endSector (PartialBatch.mk l[j - 1].startSector (l[j - 1].data ++ d)) =
        l[j].startSector := by
      rw [PartialBatch.endSector_eq (p := ⟨_, _⟩) hpdal, ← hE]
      rw [PartialBatch.endSector_eq hpal] at hS
      dsimp only
      rw [List.length_append, hd]
      unfold bytesPerSector at hpal hS ⊢
      omega
    have hm : DataRange.endSector (PartialBatch.mk l[j - 1].startSector (l[j - 1].data ++ d ++ l[j].data)) =
        DataRange.endSector l[j] := by
      rw [PartialBatch.endSector_eq (p := ⟨_, _⟩) hmal, PartialBatch.endSector_eq hqal, ← hpd,
        PartialBatch.endSector_eq (p := ⟨_, _⟩) hpdal]
      dsimp only
      rw [List.length_append]
      unfold bytesPerSector at hpdal hqal ⊢
      omega
    have hsub : KnownWF (l.take (j - 1) ++ l.drop (j + 1)) :=
      (show KnownWF (l.take (j - 1) ++ l[j - 1] :: l[j] :: l.drop (j + 1)) by
        rw [← hdecomp]; exact hl).sublist
        (List.Sublist.append (List.Sublist.refl _)
          ((List.sublist_cons_self _ _).trans (List.sublist_cons_self _ _)))
    have hset : (l.set (j - 1) (PartialBatch.mk l[j - 1].startSector (l[j - 1].data ++ d ++ l[j].data))).eraseIdx j =
        l.take (j - 1) ++ PartialBatch.mk l[j - 1].startSector (l[j - 1].data ++ d ++ l[j].data) ::
          l.drop (j + 1) := by
      rw [List.set_eq_take_append_cons_drop, if_pos hlt₁, show j - 1 + 1 = j by omega,
        List.drop_eq_getElem_cons hlt, List.eraseIdx_append_of_length_le (by rw [List.length_take]; omega),
        List.length_take, Nat.min_eq_left (by omega), show j - (j - 1) = 0 + 1 by omega,
        List.eraseIdx_cons_succ, List.eraseIdx_cons_zero]
    rw [hset]
    refine ⟨KnownWF.insert hsub (by simp [hne]) hmal (by rw [hm]; exact hl.inLoad _ (List.getElem_mem hlt))
      hpre (by rw [hm]; exact hpost), fun i => ?_⟩
    · -- the new bytes meet the batch before at `S` and the batch after at `E`
      have hdis : l[j - 1].toRun.Disjoint (Runs.Run.mk (S * bytesPerSector) d) :=
        Or.inl (by rw [PartialBatch.toRun_stop hpal, hS])
      have hq : l[j].toRun = Runs.Run.mk
          (DataRange.endSector (PartialBatch.mk l[j - 1].startSector (l[j - 1].data ++ d)) *
            bytesPerSector) l[j].data := by
        rw [hpd]
        rfl
      rw [view_insert (m := ⟨l[j - 1].startSector, l[j - 1].data ++ d ++ l[j].data⟩) (htake (j - 1))
        (fun q hq => Nat.le_of_lt (hpre q hq)),
        toRun_get_append (p := ⟨l[j - 1].startSector, l[j - 1].data ++ d⟩) hpdal, ← hq,
        toRun_get_append hpal, ← hS]
      conv_rhs => rw [hdecomp]
      rw [view_insert (htake (j - 1)) (fun q hq => Nat.le_of_lt (hpre q hq)),
        view_insert (htake (j - 1)) (fun q hq => by
          have h₁ := hpre q hq
          have h₂ := hl.start_lt_end hlt₁
          have h₃ := hl.end_lt_start hlt₁ hlt (by omega)
          omega),
        Runs.or_comm_of_none (hdis.get_eq_none i), Option.or_assoc, Option.or_assoc]

end Merge

/-- With no subtrees, the subtree loop of `insert_data` keeps none. -/
@[simp] theorem removeCompletedSubtrees_nil (u : PartialBatch) : removeCompletedSubtrees [] u = .ok [] :=
  rfl

/-- A list of whole sectors that fills the load is one batch holding all of it. -/
theorem fillsLoad_eq_true {l : List PartialBatch} (hal : ∀ p ∈ l, p.data.length % bytesPerSector = 0)
    (h : fillsLoad l = true) : ∃ d, l = [⟨0, d⟩] ∧ d.length = bytesPerLoad := by
  unfold fillsLoad at h
  simp only [Bool.and_eq_true, beq_iff_eq] at h
  obtain ⟨⟨hlen, hstart⟩, hsize⟩ := h
  obtain ⟨p, rfl⟩ := List.length_eq_one_iff.mp hlen
  have hp := hal p List.mem_cons_self
  have hget : [p][0]! = p := rfl
  rw [hget] at hstart hsize
  unfold bytesToChunks chunkSize at hsize
  unfold bytesPerSector at hp
  rw [if_pos hp] at hsize
  refine ⟨p.data, by rw [← hstart], ?_⟩
  rw [← Nat.div_mul_cancel (Nat.dvd_of_mod_eq_zero hp), hsize]
  rfl

/-- The state `insert_data` ends in from a well-formed list: complete when
the list fills the load, with the same bytes either way. -/
theorem inv_of_fillsLoad {list : List PartialBatch} (hl : KnownWF list) :
    Inv (if fillsLoad list then .complete list[0]!.data else .incomplete ⟨[], list⟩) ∧
      ∀ i, (if fillsLoad list then EntryBatchData.complete list[0]!.data else .incomplete ⟨[], list⟩).byteAt i =
        Runs.get (list.map PartialBatch.toRun) i := by
  split
  · rename_i hfill
    obtain ⟨d, rfl, hlen⟩ := fillsLoad_eq_true hl.aligned hfill
    have hget : ([⟨0, d⟩] : List PartialBatch)[0]! = ⟨0, d⟩ := rfl
    rw [hget]
    refine ⟨hlen, fun i => ?_⟩
    rw [show (EntryBatchData.complete d).byteAt i = d[i]? from rfl, List.map_singleton, Runs.get_cons,
      Runs.get_nil, Option.or_none]
    simp only [Runs.Run.get, PartialBatch.toRun_start, PartialBatch.toRun_data, Nat.zero_mul, Nat.zero_le,
      ↓reduceIte, Nat.sub_zero]
  · rename_i hfill
    exact ⟨⟨rfl, hl, by simpa using hfill⟩, fun i => rfl⟩

/-- `insert_data` with no subtrees, once both `find`s miss at position `j`:
the merged list, complete when it fills the load. -/
theorem insertData_eq_ok {x : IncompleteData} (hsub : x.subtrees = []) {b : Nat} {d : List UInt8}
    (hb : b % bytesPerSector = 0) (hd : d.length % bytesPerSector = 0) {j : Nat}
    (h₁ : DataRange.find x.knownData (b / bytesPerSector) = .error j)
    (h₂ : DataRange.find x.knownData (b / bytesPerSector + d.length / bytesPerSector - 1) = .error j) :
    ∃ ready, (EntryBatchData.incomplete x).insertData b d =
      .ok (if fillsLoad (mergeAt x.knownData j (b / bytesPerSector)
              (b / bytesPerSector + d.length / bytesPerSector) d).1 then
            .complete (mergeAt x.knownData j (b / bytesPerSector)
              (b / bytesPerSector + d.length / bytesPerSector) d).1[0]!.data
          else .incomplete ⟨[], (mergeAt x.knownData j (b / bytesPerSector)
              (b / bytesPerSector + d.length / bytesPerSector) d).1⟩, ready) := by
  unfold insertData
  simp only [hb, hd, h₁, h₂, hsub, ne_eq, not_true_eq_false, ↓reduceIte, removeCompletedSubtrees_nil,
    Except.ok_bind, Except.pure_eq_ok]
  exact ⟨_, rfl⟩

/-- `insert_data` refuses any data for a complete batch. -/
theorem insertData_complete {data : List UInt8} {b : Nat} {d : List UInt8}
    (hb : b % bytesPerSector = 0) (hd : d.length % bytesPerSector = 0) :
    ∃ msg, (EntryBatchData.complete data).insertData b d = .error (.bail msg) := by
  unfold insertData
  simp only [hb, hd, ne_eq, not_true_eq_false, ↓reduceIte, Except.throw_eq_error]
  exact ⟨_, rfl⟩

section Insert

/-- An `insert_data` call of whole sectors, not empty, inside the load. -/
def ValidInsert (startByte : Nat) (data : List UInt8) : Prop :=
  startByte % bytesPerSector = 0 ∧ data.length % bytesPerSector = 0 ∧ data ≠ [] ∧
    startByte + data.length ≤ bytesPerLoad

/-- No batch of the list meets the sectors `[S, E)`. -/
def Misses (l : List PartialBatch) (S E : Nat) : Prop :=
  ∀ (k : Nat) (hk : k < l.length), DataRange.endSector l[k] ≤ S ∨ E ≤ l[k].startSector

/-- The sectors of a valid call: it starts at sector `S` and ends before
sector `E`, inside the load. -/
theorem ValidInsert.sectors {b : Nat} {d : List UInt8} (hv : ValidInsert b d) :
    b = b / bytesPerSector * bytesPerSector ∧
      d.length = (b / bytesPerSector + d.length / bytesPerSector - b / bytesPerSector) * bytesPerSector ∧
      b / bytesPerSector < b / bytesPerSector + d.length / bytesPerSector ∧
      b / bytesPerSector + d.length / bytesPerSector ≤ sectorsPerLoad := by
  obtain ⟨hb, hd, hne, hload⟩ := hv
  have hpos := List.length_pos_of_ne_nil hne
  have hsum : b + d.length = (b / bytesPerSector + d.length / bytesPerSector) * bytesPerSector := by
    unfold bytesPerSector at hb hd ⊢
    omega
  refine ⟨by unfold bytesPerSector at hb ⊢; omega, by unfold bytesPerSector at hd ⊢; omega,
    by unfold bytesPerSector at hd ⊢; omega, ?_⟩
  rw [hsum, show bytesPerLoad = sectorsPerLoad * bytesPerSector from rfl] at hload
  exact Nat.le_of_mul_le_mul_right hload (by decide)

theorem Splits.misses {l : List PartialBatch} {j S E : Nat} (hs : Splits l j S E) : Misses l S E :=
  fun k hk =>
    if h : k < j then Or.inl ((hs.2 k hk).1 h) else Or.inr ((hs.2 k hk).2 (Nat.not_lt.mp h))

variable {l : List PartialBatch} (hl : KnownWF l)
include hl

/-- Two `find`s that miss at the same position split the list around the
range. -/
theorem KnownWF.splits_of_find {S E j : Nat} (h₁ : DataRange.find l S = .error j)
    (h₂ : DataRange.find l (E - 1) = .error j) : Splits l j S E := by
  obtain ⟨hj, hb₁⟩ := hl.find_error h₁
  obtain ⟨-, hb₂⟩ := hl.find_error h₂
  exact ⟨hj, fun k hk => ⟨(hb₁ k hk).1, fun h => by have := (hb₂ k hk).2 h; omega⟩⟩

/-- A sector of a range that no batch meets is found in no batch. -/
theorem KnownWF.find_of_misses {S E x : Nat} (hm : Misses l S E) (hx : S ≤ x) (hxE : x < E) :
    ∃ j, DataRange.find l x = .error j := by
  cases h : DataRange.find l x with
  | error j => exact ⟨j, rfl⟩
  | ok k =>
    obtain ⟨hk, h₁, h₂⟩ := hl.find_ok h
    rcases hm k hk with h | h <;> omega

/-- For a range that no batch meets, the two `find`s of `insert_data` miss
at the same position. -/
theorem KnownWF.find_eq_of_misses {S E j₁ j₂ : Nat} (hSE : S < E) (hm : Misses l S E)
    (h₁ : DataRange.find l S = .error j₁) (h₂ : DataRange.find l (E - 1) = .error j₂) : j₁ = j₂ := by
  obtain ⟨hj₁, hb₁⟩ := hl.find_error h₁
  obtain ⟨hj₂, hb₂⟩ := hl.find_error h₂
  rcases Nat.lt_trichotomy j₁ j₂ with hlt | heq | hlt
  · -- batch `j₁` would start inside the range
    have := (hb₁ j₁ (by omega)).2 (Nat.le_refl _)
    have := (hb₂ j₁ (by omega)).1 hlt
    have := hl.start_lt_end (show j₁ < l.length by omega)
    rcases hm j₁ (by omega) with h | h <;> omega
  · exact heq
  · -- batch `j₂` would end after the range starts and start before it ends
    have := (hb₁ j₂ (by omega)).1 hlt
    have := (hb₂ j₂ (by omega)).2 (Nat.le_refl _)
    have := hl.start_lt_end (show j₂ < l.length by omega)
    omega

/-- A byte the list holds lies in the sectors of one of its batches. -/
theorem KnownWF.holds_of_get {i : Nat} {a : UInt8} (h : Runs.get (l.map PartialBatch.toRun) i = some a) :
    ∃ (k : Nat) (hk : k < l.length),
      l[k].startSector * bytesPerSector ≤ i ∧ i < DataRange.endSector l[k] * bytesPerSector := by
  obtain ⟨r, hr, hget⟩ := Runs.exists_of_get h
  obtain ⟨p, hp, rfl⟩ := List.mem_map.mp hr
  obtain ⟨k, hk, rfl⟩ := List.mem_iff_getElem.mp hp
  have := Runs.Run.start_le_of_get hget
  rw [PartialBatch.toRun_stop (hl.aligned_get hk), PartialBatch.toRun_start] at this
  exact ⟨k, hk, this⟩

/-- Each byte of a batch's sectors is held by the list. -/
theorem KnownWF.get_isSome_of_holds {k : Nat} (hk : k < l.length) {i : Nat}
    (h₁ : l[k].startSector * bytesPerSector ≤ i) (h₂ : i < DataRange.endSector l[k] * bytesPerSector) :
    (Runs.get (l.map PartialBatch.toRun) i).isSome := by
  refine Runs.get_isSome_of_mem (List.mem_map_of_mem (List.getElem_mem hk)) ?_
  rw [Runs.Run.get_isSome_iff, PartialBatch.toRun_stop (hl.aligned_get hk), PartialBatch.toRun_start]
  exact ⟨h₁, h₂⟩

end Insert

section InsertData

/-- `insert_data` adds a valid range that no batch meets: the new state
knows the new bytes and what the old one knew. -/
theorem insertData_of_misses {x : IncompleteData} (hsub : x.subtrees = []) (hl : KnownWF x.knownData)
    {b : Nat} {d : List UInt8} (hv : ValidInsert b d)
    (hm : Misses x.knownData (b / bytesPerSector) (b / bytesPerSector + d.length / bytesPerSector)) :
    ∃ s' ready, (EntryBatchData.incomplete x).insertData b d = .ok (s', ready) ∧ Inv s' ∧
      ∀ i, s'.byteAt i = ((Runs.Run.mk b d).get i).or ((EntryBatchData.incomplete x).byteAt i) := by
  obtain ⟨hb, hd, hSE, hload⟩ := hv.sectors
  obtain ⟨j₁, h₁⟩ := hl.find_of_misses hm (Nat.le_refl _) hSE
  obtain ⟨j₂, h₂⟩ := hl.find_of_misses hm (x := b / bytesPerSector + d.length / bytesPerSector - 1)
    (by unfold bytesPerSector at hSE ⊢; omega) (by unfold bytesPerSector at hSE ⊢; omega)
  obtain rfl := hl.find_eq_of_misses hSE hm h₁ h₂
  obtain ⟨ready, heq⟩ := insertData_eq_ok hsub hv.1 hv.2.1 h₁ h₂
  obtain ⟨hwf, hview⟩ := mergeAt_spec hl (hl.splits_of_find h₁ h₂) hSE hd hload
  obtain ⟨hinv, hbyte⟩ := inv_of_fillsLoad hwf
  refine ⟨_, ready, heq, hinv, fun i => ?_⟩
  rw [hbyte, hview, ← hb]
  rfl

/-- `insert_data` refuses a valid range that meets a batch. -/
theorem insertData_of_meets {x : IncompleteData} (hl : KnownWF x.knownData) {b : Nat} {d : List UInt8}
    (hv : ValidInsert b d)
    (hm : ¬ Misses x.knownData (b / bytesPerSector) (b / bytesPerSector + d.length / bytesPerSector)) :
    ∃ msg, (EntryBatchData.incomplete x).insertData b d = .error (.bail msg) := by
  unfold insertData
  simp only [hv.1, hv.2.1, ne_eq, not_true_eq_false, ↓reduceIte]
  -- the start sector is known, the end sector is known, or a batch lies in between
  cases h₁ : DataRange.find x.knownData (b / bytesPerSector) with
  | ok k =>
    simp only [Except.throw_eq_error, Except.error_bind]
    exact ⟨_, rfl⟩
  | error j₁ =>
    cases h₂ : DataRange.find x.knownData (b / bytesPerSector + d.length / bytesPerSector - 1) with
    | ok k =>
      simp only [Except.pure_eq_ok, Except.ok_bind, Except.throw_eq_error, Except.error_bind]
      exact ⟨_, rfl⟩
    | error j₂ =>
      by_cases hj : j₁ = j₂
      · subst hj
        exact absurd (hl.splits_of_find h₁ h₂).misses hm
      · simp only [Except.pure_eq_ok, Except.ok_bind, hj, not_false_eq_true, ↓reduceIte,
          Except.throw_eq_error, Except.error_bind]
        exact ⟨_, rfl⟩

end InsertData

end EntryBatchData

end ZgStorage
