import Mathlib
import ZgStorage.Ssz.Basic
import ZgStorage.LogStore.EntryBatch

/-!
# The database form of an entry batch

`FlowDBStore` stores an `EntryBatch` as its SSZ bytes and reads it back with
`EntryBatch::from_ssz_bytes` (`get_entry_batch`). `EntryBatch`, `SealInfo`,
`SealContextInfo`, `IncompleteData` and `Subtree` are derived containers of
their fields; `EntryBatchData` writes a tag byte before its data and
`PartialBatch` its start sector in eight big-endian bytes before its data
(`serde.rs`); the seal bitmap is the `u64` of its bits (`bitmap.rs`).

An `Encodable` batch, whose integers fit the widths they are written in,
whose bitmap marks only the load's seals, and whose offsets are all below
`2 ^ 32`, reads back field for field. The offsets are what can fail: the
offset after the subtrees of an incomplete batch is `8 + 48 * n`, and the one
after the seal information `60 + 34 * n` for `n` seal contexts.

## Main results

* `EntryBatch.fromSszBytes_asSszBytes`: an encodable batch reads back.
-/

namespace ZgStorage

open Ssz

/-- `H256::from_ssz_bytes`. -/
def decodeH256 (bytes : List UInt8) : Except Failure H256 :=
  if h : bytes.length ≠ 32 then throw (.decode (.invalidByteLength bytes.length 32))
  else pure ⟨bytes.toArray, by simpa using h⟩

@[simp] theorem length_bytes (h : H256) : h.bytes.length = 32 := h.length_toList

theorem decodeH256_bytes (h : H256) : decodeH256 h.bytes = .ok h := by
  rw [decodeH256, dif_neg (by simp)]
  cases h
  rfl

/-! ### The seal information -/

namespace SealInfo

/-- The value of the first `k` bits of a bitmap, bit `i` for seal `i`. -/
def bitsValue (bitmap : Nat → Bool) : Nat → Nat
  | 0 => 0
  | k + 1 => Nat.bit (bitmap 0) (bitsValue (fun i => bitmap (i + 1)) k)

/-- `Bitmap::into_value` of the `ChunkSealBitmap`. -/
def bitmapValue (s : SealInfo) : Nat := bitsValue s.bitmap sealsPerLoad

/-- `Bitmap::from_value`. -/
def bitmapOfValue (value : Nat) : Nat → Bool := fun i => value.testBit i

theorem testBit_bitsValue : ∀ (k : Nat) (bitmap : Nat → Bool) (i : Nat),
    (bitsValue bitmap k).testBit i = (decide (i < k) && bitmap i)
  | 0, _, i => by simp [bitsValue]
  | k + 1, bitmap, 0 => by simp [bitsValue]
  | k + 1, bitmap, i + 1 => by
    rw [bitsValue, Nat.testBit_bit_succ, testBit_bitsValue k _ i]
    simp

theorem bitsValue_lt : ∀ (k : Nat) (bitmap : Nat → Bool), bitsValue bitmap k < 2 ^ k
  | 0, _ => by simp [bitsValue]
  | k + 1, bitmap => by
    rw [bitsValue, Nat.bit_lt_two_pow_succ_iff]
    exact bitsValue_lt k _

end SealInfo

namespace SealContextInfo

/-- The fields of the derived container. -/
def fields (c : SealContextInfo) : List Field :=
  [⟨true, 32, c.contextDigest.bytes⟩, ⟨true, 2, leBytes 2 c.endSealIndex⟩]

/-- `SealContextInfo::as_ssz_bytes`. -/
def asSszBytes (c : SealContextInfo) : List UInt8 := encodeContainer c.fields

/-- `SealContextInfo::from_ssz_bytes`. -/
def fromSszBytes (bytes : List UInt8) : Except Failure SealContextInfo := do
  let items ← decodeContainer [(true, 32), (true, 2)] bytes
  let (contextDigest, items) ← decodeNext decodeH256 items
  let (endSealIndex, _) ← decodeNext (decodeUint 2) items
  pure ⟨contextDigest, endSealIndex⟩

end SealContextInfo

namespace SealInfo

/-- The fields of the derived container. -/
def fields (s : SealInfo) : List Field :=
  [⟨true, 8, leBytes 8 s.bitmapValue⟩, ⟨true, 8, leBytes 8 s.loadIndex⟩, ⟨true, 32, s.minerId.bytes⟩,
    ⟨false, bytesPerLengthOffset, encodeVec true (s.sealContexts.map SealContextInfo.asSszBytes)⟩]

/-- `SealInfo::as_ssz_bytes`. -/
def asSszBytes (s : SealInfo) : List UInt8 := encodeContainer s.fields

/-- `SealInfo::from_ssz_bytes`. -/
def fromSszBytes (bytes : List UInt8) : Except Failure SealInfo := do
  let items ← decodeContainer [(true, 8), (true, 8), (true, 32), (false, bytesPerLengthOffset)] bytes
  let (bitmap, items) ← decodeNext (fun slice => bitmapOfValue <$> decodeUint 8 slice) items
  let (loadIndex, items) ← decodeNext (decodeUint 8) items
  let (minerId, items) ← decodeNext decodeH256 items
  let (sealContexts, _) ← decodeNext (decodeVec true 34 SealContextInfo.fromSszBytes) items
  pure ⟨bitmap, loadIndex, minerId, sealContexts⟩

end SealInfo

/-! ### The data -/

namespace Subtree

/-- The fields of the derived container. -/
def fields (t : Subtree) : List Field :=
  [⟨true, 8, leBytes 8 t.startSector⟩, ⟨true, 8, leBytes 8 t.subtreeHeight⟩, ⟨true, 32, t.root.bytes⟩]

/-- `Subtree::as_ssz_bytes`. -/
def asSszBytes (t : Subtree) : List UInt8 := encodeContainer t.fields

/-- `Subtree::from_ssz_bytes`. -/
def fromSszBytes (bytes : List UInt8) : Except Failure Subtree := do
  let items ← decodeContainer [(true, 8), (true, 8), (true, 32)] bytes
  let (startSector, items) ← decodeNext (decodeUint 8) items
  let (subtreeHeight, items) ← decodeNext (decodeUint 8) items
  let (root, _) ← decodeNext decodeH256 items
  pure ⟨startSector, subtreeHeight, root⟩

end Subtree

namespace PartialBatch

/-- `PartialBatch::ssz_append`: the start sector in big-endian bytes
(`to_be_bytes`), then the data. -/
def asSszBytes (p : PartialBatch) : List UInt8 := (leBytes 8 p.startSector).reverse ++ p.data

/-- `PartialBatch::from_ssz_bytes`: `bytes[..8]` panics on fewer bytes. -/
def fromSszBytes (bytes : List UInt8) : Except Failure PartialBatch :=
  if bytes.length < 8 then
    throw (.panic ("range end index 8 out of range for slice of length " ++ toString bytes.length))
  else pure ⟨fromLeBytes (bytes.take 8).reverse, bytes.drop 8⟩

end PartialBatch

namespace IncompleteData

/-- The fields of the derived container. -/
def fields (x : IncompleteData) : List Field :=
  [⟨false, bytesPerLengthOffset, encodeVec true (x.subtrees.map Subtree.asSszBytes)⟩,
    ⟨false, bytesPerLengthOffset, encodeVec false (x.knownData.map PartialBatch.asSszBytes)⟩]

/-- `IncompleteData::as_ssz_bytes`. -/
def asSszBytes (x : IncompleteData) : List UInt8 := encodeContainer x.fields

/-- `IncompleteData::from_ssz_bytes`. -/
def fromSszBytes (bytes : List UInt8) : Except Failure IncompleteData := do
  let items ← decodeContainer [(false, bytesPerLengthOffset), (false, bytesPerLengthOffset)] bytes
  let (subtrees, items) ← decodeNext (decodeVec true 48 Subtree.fromSszBytes) items
  let (knownData, _) ← decodeNext (decodeVec false bytesPerLengthOffset PartialBatch.fromSszBytes) items
  pure ⟨subtrees, knownData⟩

end IncompleteData

namespace EntryBatchData

/-- `COMPLETE_BATCH_TYPE`. -/
def completeBatchType : UInt8 := 0

/-- `INCOMPLETE_BATCH_TYPE`. -/
def incompleteBatchType : UInt8 := 1

/-- `EntryBatchData::ssz_append`: the tag, then the data. -/
def asSszBytes : EntryBatchData → List UInt8
  | .complete data => completeBatchType :: data
  | .incomplete x => incompleteBatchType :: x.asSszBytes

/-- `EntryBatchData::from_ssz_bytes`. -/
def fromSszBytes (bytes : List UInt8) : Except Failure EntryBatchData :=
  match bytes with
  | [] => throw (.decode .zeroLengthItem)
  | tag :: rest =>
    if tag = completeBatchType then pure (.complete rest)
    else if tag = incompleteBatchType then .incomplete <$> IncompleteData.fromSszBytes rest
    else throw (.decode (.bytesInvalid ("Unrecognized EntryBatchData identifier " ++ toString tag)))

end EntryBatchData

namespace EntryBatch

/-- The fields of the derived container. -/
def fields (b : EntryBatch) : List Field :=
  [⟨false, bytesPerLengthOffset, b.seal.asSszBytes⟩, ⟨false, bytesPerLengthOffset, b.data.asSszBytes⟩]

/-- `EntryBatch::as_ssz_bytes`. -/
def asSszBytes (b : EntryBatch) : List UInt8 := encodeContainer b.fields

/-- `EntryBatch::from_ssz_bytes`. -/
def fromSszBytes (bytes : List UInt8) : Except Failure EntryBatch := do
  let items ← decodeContainer [(false, bytesPerLengthOffset), (false, bytesPerLengthOffset)] bytes
  let (s, items) ← decodeNext SealInfo.fromSszBytes items
  let (data, _) ← decodeNext EntryBatchData.fromSszBytes items
  pure ⟨s, data⟩

end EntryBatch

/-! ### Reading back -/

namespace SealContextInfo

theorem wellSized_fields (c : SealContextInfo) : ∀ f ∈ c.fields, f.WellSized := by
  simp [fields, Field.WellSized, length_leBytes]

theorem length_asSszBytes (c : SealContextInfo) : c.asSszBytes.length = 34 := by
  rw [asSszBytes, length_encodeContainer_of_fixed c.wellSized_fields (by simp [fields])]
  rfl

theorem fromSszBytes_asSszBytes {c : SealContextInfo} (h : c.endSealIndex < 2 ^ 16) :
    fromSszBytes c.asSszBytes = .ok c := by
  have hitems := decodeContainer_encodeContainer_of_dropLast c.wellSized_fields
    (by simp [fields, variablePart, Field.varBytes])
  rw [fromSszBytes, show [(true, 32), (true, 2)] = c.fields.map fun f => (f.isSszFixedLen, f.sszFixedLen) from rfl,
    asSszBytes, hitems]
  simp only [fields, List.map_cons, List.map_nil, Except.ok_bind, decodeNext_cons (decodeH256_bytes _),
    decodeNext_cons (decodeUint_leBytes (show c.endSealIndex < 256 ^ 2 by omega))]
  rfl

end SealContextInfo

namespace SealInfo

/-- What the round trip of the seal information needs: the bitmap marks
only the load's seals, and the load index and the contexts' ends fit their
`u64` and `u16`. -/
structure Encodable (s : SealInfo) : Prop where
  bitmap_lt : ∀ i, s.bitmap i = true → i < sealsPerLoad
  loadIndex_lt : s.loadIndex < 2 ^ 64
  endSealIndex_lt : ∀ c ∈ s.sealContexts, c.endSealIndex < 2 ^ 16

/-- The bitmap reads back from its value when it marks only the load's
seals. -/
theorem bitmapOfValue_bitmapValue {s : SealInfo} (h : ∀ i, s.bitmap i = true → i < sealsPerLoad) :
    bitmapOfValue s.bitmapValue = s.bitmap := by
  funext i
  rw [bitmapOfValue, bitmapValue, testBit_bitsValue]
  by_cases hi : i < sealsPerLoad
  · simp [hi]
  · have hoff : s.bitmap i = false := Bool.eq_false_iff.mpr fun hb => hi (h i hb)
    simp [hi, hoff]

theorem wellSized_fields (s : SealInfo) : ∀ f ∈ s.fields, f.WellSized := by
  simp [fields, Field.WellSized, length_leBytes, bytesPerLengthOffset]

/-- The fixed part is 52 bytes, and each context 34 bytes more. -/
theorem length_asSszBytes (s : SealInfo) : s.asSszBytes.length = 52 + 34 * s.sealContexts.length := by
  rw [asSszBytes, encodeContainer_eq, List.length_append, length_fixedPart _ _ _ s.wellSized_fields]
  simp [fields, variablePart, Field.varBytes, encodeVec, List.length_flatten, Function.comp_def,
    SealContextInfo.length_asSszBytes, bytesPerLengthOffset, Nat.mul_comm]

theorem Encodable.fromSszBytes_asSszBytes {s : SealInfo} (hs : s.Encodable) : fromSszBytes s.asSszBytes = .ok s := by
  have hitems := decodeContainer_encodeContainer_of_dropLast s.wellSized_fields
    (by simp [fields, variablePart, Field.varBytes, bytesPerLengthOffset])
  -- the contexts are items of 34 bytes
  have hcontexts : decodeVec true 34 SealContextInfo.fromSszBytes
      (encodeVec true (s.sealContexts.map SealContextInfo.asSszBytes)) = .ok s.sealContexts := by
    refine decodeVec_encodeVec_fixed (by decide) ?_ (Except.mapM_map_eq_ok fun c hc =>
      SealContextInfo.fromSszBytes_asSszBytes (hs.endSealIndex_lt c hc))
    intro x hx
    obtain ⟨c, -, rfl⟩ := List.mem_map.mp hx
    exact c.length_asSszBytes
  have hbitmap : bitmapOfValue <$> decodeUint 8 (leBytes 8 s.bitmapValue) = .ok s.bitmap := by
    rw [decodeUint_leBytes (show s.bitmapValue < 256 ^ 8 from bitsValue_lt 64 s.bitmap)]
    show Except.ok (bitmapOfValue s.bitmapValue) = _
    rw [bitmapOfValue_bitmapValue hs.bitmap_lt]
  rw [fromSszBytes, show [(true, 8), (true, 8), (true, 32), (false, bytesPerLengthOffset)] =
    s.fields.map fun f => (f.isSszFixedLen, f.sszFixedLen) from rfl, asSszBytes, hitems]
  simp only [fields, List.map_cons, List.map_nil, Except.ok_bind, decodeNext_cons (f := fun slice => bitmapOfValue <$> decodeUint 8 slice) hbitmap,
    decodeNext_cons (decodeUint_leBytes (show s.loadIndex < 256 ^ 8 from hs.loadIndex_lt)),
    decodeNext_cons (decodeH256_bytes _), decodeNext_cons hcontexts]
  rfl

end SealInfo

namespace Subtree

/-- The start and the height of a subtree fit their `usize`. -/
structure Encodable (t : Subtree) : Prop where
  startSector_lt : t.startSector < 2 ^ 64
  subtreeHeight_lt : t.subtreeHeight < 2 ^ 64

theorem wellSized_fields (t : Subtree) : ∀ f ∈ t.fields, f.WellSized := by
  simp [fields, Field.WellSized, length_leBytes]

theorem length_asSszBytes (t : Subtree) : t.asSszBytes.length = 48 := by
  rw [asSszBytes, length_encodeContainer_of_fixed t.wellSized_fields (by simp [fields])]
  rfl

theorem Encodable.fromSszBytes_asSszBytes {t : Subtree} (ht : t.Encodable) : fromSszBytes t.asSszBytes = .ok t := by
  have hitems := decodeContainer_encodeContainer_of_dropLast t.wellSized_fields
    (by simp [fields, variablePart, Field.varBytes])
  rw [fromSszBytes, show [(true, 8), (true, 8), (true, 32)] = t.fields.map fun f => (f.isSszFixedLen, f.sszFixedLen)
    from rfl, asSszBytes, hitems]
  simp only [fields, List.map_cons, List.map_nil, Except.ok_bind,
    decodeNext_cons (decodeUint_leBytes (show t.startSector < 256 ^ 8 from ht.startSector_lt)),
    decodeNext_cons (decodeUint_leBytes (show t.subtreeHeight < 256 ^ 8 from ht.subtreeHeight_lt)),
    decodeNext_cons (decodeH256_bytes _)]
  rfl

/-- Between 16 and 48 bytes, the decoder takes the start and the height and
then asks for 48 bytes. -/
theorem fromSszBytes_of_length {bytes : List UInt8} (h₁ : 16 ≤ bytes.length) (h₂ : bytes.length < 48) :
    fromSszBytes bytes = .error (.decode (.invalidByteLength bytes.length 48)) := by
  have h8 : 0 + 8 ≤ bytes.length := by omega
  have h16 : 0 + 8 + 8 ≤ bytes.length := by omega
  have h48 : ¬ 0 + 8 + 8 + 32 ≤ bytes.length := by omega
  simp only [fromSszBytes, decodeContainer, List.foldlM_cons, List.foldlM_nil, SszDecoderBuilder.new,
    SszDecoderBuilder.registerTypeParameterized, if_true, if_pos h8, if_pos h16, if_neg h48, Except.pure_eq_ok,
    Except.ok_bind, Except.throw_eq_error, Except.error_bind]

end Subtree

namespace PartialBatch

theorem length_asSszBytes (p : PartialBatch) : p.asSszBytes.length = 8 + p.data.length := by
  simp [asSszBytes, length_leBytes]

theorem fromSszBytes_asSszBytes {p : PartialBatch} (h : p.startSector < 2 ^ 64) :
    fromSszBytes p.asSszBytes = .ok p := by
  have hlen : (leBytes 8 p.startSector).reverse.length = 8 := by simp [length_leBytes]
  rw [fromSszBytes, if_neg (by rw [length_asSszBytes]; omega), asSszBytes, List.take_left' hlen,
    List.drop_left' hlen, List.reverse_reverse, fromLeBytes_leBytes, Nat.mod_eq_of_lt (by simpa using h)]
  rfl

end PartialBatch

namespace IncompleteData

/-- What the round trip of an incomplete batch needs: its subtrees and
start sectors fit their `usize`, the offset after the subtrees is below
`2 ^ 32`, and so is every offset of its partial batches. -/
structure Encodable (x : IncompleteData) : Prop where
  subtrees : ∀ t ∈ x.subtrees, t.Encodable
  startSector_lt : ∀ p ∈ x.knownData, p.startSector < 2 ^ 64
  subtrees_offset_lt : 8 + 48 * x.subtrees.length < 2 ^ 32
  knownData_offset_lt : 12 * x.knownData.length + (x.knownData.map fun p => p.data.length).sum < 2 ^ 32

theorem wellSized_fields (x : IncompleteData) : ∀ f ∈ x.fields, f.WellSized := by
  simp [fields, Field.WellSized]

theorem length_encodeVec_subtrees (x : IncompleteData) :
    (encodeVec true (x.subtrees.map Subtree.asSszBytes)).length = 48 * x.subtrees.length := by
  simp [encodeVec, List.length_flatten, Function.comp_def, Subtree.length_asSszBytes, Nat.mul_comm]

/-- The bytes of the partial batches are `8` a batch more than their data. -/
theorem length_flatten_knownData :
    ∀ l : List PartialBatch,
      ((l.map PartialBatch.asSszBytes).flatten).length = 8 * l.length + (l.map fun p => p.data.length).sum
  | [] => rfl
  | p :: l => by
    simp only [List.map_cons, List.flatten_cons, List.length_append, PartialBatch.length_asSszBytes,
      length_flatten_knownData l, List.sum_cons, List.length_cons]
    omega

theorem length_dropLast_knownData (l : List PartialBatch) :
    ((l.map PartialBatch.asSszBytes).dropLast.flatten).length ≤ 8 * l.length + (l.map fun p => p.data.length).sum := by
  rw [← length_flatten_knownData]
  exact (List.dropLast_prefix _).flatten.length_le

theorem Encodable.fromSszBytes_asSszBytes {x : IncompleteData} (hx : x.Encodable) :
    fromSszBytes x.asSszBytes = .ok x := by
  have hitems := decodeContainer_encodeContainer_of_dropLast x.wellSized_fields (by
    have := hx.subtrees_offset_lt
    simp only [fields, List.dropLast_cons_cons, List.dropLast_singleton, variablePart, List.flatMap_cons,
      List.flatMap_nil, List.append_nil, Field.varBytes, Bool.false_eq_true, if_false, length_encodeVec_subtrees]
    simp [bytesPerLengthOffset]
    omega)
  have hsubtrees : decodeVec true 48 Subtree.fromSszBytes (encodeVec true (x.subtrees.map Subtree.asSszBytes)) =
      .ok x.subtrees := by
    refine decodeVec_encodeVec_fixed (by decide) ?_ (Except.mapM_map_eq_ok fun t ht =>
      (hx.subtrees t ht).fromSszBytes_asSszBytes)
    intro b hb
    obtain ⟨t, -, rfl⟩ := List.mem_map.mp hb
    exact t.length_asSszBytes
  have hknown : decodeVec false bytesPerLengthOffset PartialBatch.fromSszBytes
      (encodeVec false (x.knownData.map PartialBatch.asSszBytes)) = .ok x.knownData := by
    refine decodeVec_encodeVec_variable _ (Except.mapM_map_eq_ok fun p hp =>
      PartialBatch.fromSszBytes_asSszBytes (hx.startSector_lt p hp)) ?_
    have := length_dropLast_knownData x.knownData
    have := hx.knownData_offset_lt
    rw [List.length_map]
    simp only [bytesPerLengthOffset]
    omega
  rw [fromSszBytes, show [(false, bytesPerLengthOffset), (false, bytesPerLengthOffset)] =
    x.fields.map fun f => (f.isSszFixedLen, f.sszFixedLen) from rfl, asSszBytes, hitems]
  simp only [fields, List.map_cons, List.map_nil, Except.ok_bind, decodeNext_cons hsubtrees,
    decodeNext_cons hknown]
  rfl

/-- With `89478486` subtrees the offset after them, `8 + 48 * 89478486`, is
written as `40`: the decoder hands the subtrees 32 bytes, which are no
subtree, whatever the subtrees hold. -/
theorem fromSszBytes_manySubtrees (t : Subtree) :
    fromSszBytes (⟨List.replicate 89478486 t, []⟩ : IncompleteData).asSszBytes =
      .error (.decode (.invalidByteLength 32 48)) := by
  obtain ⟨S, hS⟩ : ∃ S, encodeVec true ((List.replicate 89478486 t).map Subtree.asSszBytes) = S := ⟨_, rfl⟩
  have hlen : S.length = 48 * 89478486 := by
    rw [← hS, encodeVec, if_pos rfl, List.length_flatten, List.map_map, List.map_replicate, List.sum_replicate,
      Function.comp_apply, Subtree.length_asSszBytes, smul_eq_mul, Nat.mul_comm]
  have hbytes : (⟨List.replicate 89478486 t, []⟩ : IncompleteData).asSszBytes =
      encodeLength 8 ++ (encodeLength (8 + 48 * 89478486) ++ S) := by
    have hnil : encodeVec false [] = [] := rfl
    rw [asSszBytes, fields, hS, List.map_nil, hnil]
    show encodeContainer [varField S, varField []] = _
    rw [encodeContainer_varField_pair, hlen, List.append_nil]
  -- the offset wraps to `40`, so the subtrees' slice is the first 32 bytes of the first subtree
  have hcut := @decodeContainer_varPair (8 + 48 * 89478486) S (by norm_num) (by rw [hlen]; norm_num)
  have hk : (8 + 48 * 89478486) % 2 ^ 32 - 8 = 32 := by norm_num
  rw [hk] at hcut
  have hfirst : S.take 32 = t.asSszBytes.take 32 := by
    rw [← hS, encodeVec, if_pos rfl, List.map_replicate, List.replicate_succ, List.flatten_cons,
      List.take_append_of_le_length (by rw [Subtree.length_asSszBytes]; omega)]
  have hslice : (t.asSszBytes.take 32).length = 32 := by simp [Subtree.length_asSszBytes]
  -- the 32 bytes are one chunk, too short for a subtree
  have hsub : decodeVec true 48 Subtree.fromSszBytes (t.asSszBytes.take 32) =
      .error (.decode (.invalidByteLength 32 48)) := by
    have hne : t.asSszBytes.take 32 ≠ [] := List.ne_nil_of_length_pos (by omega)
    rw [decodeVec, if_neg (by simpa using hne), if_pos rfl, if_neg (by decide), chunks_of_length_le hne (by omega),
      List.mapM_cons, Subtree.fromSszBytes_of_length (by omega) (by omega), hslice, Except.error_bind]
  rw [fromSszBytes, hbytes, hcut, Except.ok_bind, hfirst, decodeNext, hsub, Except.error_bind, Except.error_bind]

end IncompleteData

namespace EntryBatchData

/-- A complete batch always reads back; an incomplete one when it is
encodable. -/
def Encodable : EntryBatchData → Prop
  | .complete _ => True
  | .incomplete x => x.Encodable

theorem Encodable.fromSszBytes_asSszBytes : ∀ {d : EntryBatchData}, d.Encodable → fromSszBytes d.asSszBytes = .ok d
  | .complete data, _ => rfl
  | .incomplete x, hx => by
    rw [asSszBytes, fromSszBytes, if_neg (by decide), if_pos rfl,
      IncompleteData.Encodable.fromSszBytes_asSszBytes hx]
    rfl

end EntryBatchData

namespace EntryBatch

/-- What the round trip of a batch needs: both its parts are encodable, and
the offset after the seal information, `8 + 52 + 34 * n` for `n` contexts,
is below `2 ^ 32`. -/
structure Encodable (b : EntryBatch) : Prop where
  sealInfo : b.seal.Encodable
  data : b.data.Encodable
  seal_offset_lt : 60 + 34 * b.seal.sealContexts.length < 2 ^ 32

theorem wellSized_fields (b : EntryBatch) : ∀ f ∈ b.fields, f.WellSized := by
  simp [fields, Field.WellSized]

/-- The container of a batch gives back the bytes of its two parts when the
offset after the seal information fits. -/
theorem decodeContainer_asSszBytes {b : EntryBatch} (h : 60 + 34 * b.seal.sealContexts.length < 2 ^ 32) :
    decodeContainer [(false, bytesPerLengthOffset), (false, bytesPerLengthOffset)] b.asSszBytes =
      .ok [b.seal.asSszBytes, b.data.asSszBytes] :=
  decodeContainer_encodeContainer_of_dropLast b.wellSized_fields (by
    simp only [fields, List.dropLast_cons_cons, List.dropLast_singleton, variablePart, List.flatMap_cons,
      List.flatMap_nil, List.append_nil, Field.varBytes, Bool.false_eq_true, if_false, SealInfo.length_asSszBytes]
    simp [bytesPerLengthOffset]
    omega)

/-- An encodable batch reads back field for field. -/
theorem Encodable.fromSszBytes_asSszBytes {b : EntryBatch} (hb : b.Encodable) : fromSszBytes b.asSszBytes = .ok b := by
  rw [fromSszBytes, decodeContainer_asSszBytes hb.seal_offset_lt]
  simp only [Except.ok_bind, decodeNext_cons hb.sealInfo.fromSszBytes_asSszBytes,
    decodeNext_cons hb.data.fromSszBytes_asSszBytes]
  rfl

/-- A batch whose seal information reads back fails to read back where its
data does, with the data's error. -/
theorem fromSszBytes_asSszBytes_of_data {b : EntryBatch} (hs : b.seal.Encodable)
    (h : 60 + 34 * b.seal.sealContexts.length < 2 ^ 32) {e : Failure}
    (hd : EntryBatchData.fromSszBytes b.data.asSszBytes = .error e) : fromSszBytes b.asSszBytes = .error e := by
  rw [fromSszBytes, decodeContainer_asSszBytes h]
  simp only [Except.ok_bind, decodeNext_cons hs.fromSszBytes_asSszBytes]
  rw [decodeNext, hd]
  rfl

end EntryBatch

end ZgStorage
