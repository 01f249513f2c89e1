import Mathlib
import ZgStorage.Framework.Except

/-!
# SSZ: offsets, containers and lists

The vendored `eth2_ssz` crate (`encode.rs`, `decode.rs`, `encode/impls.rs`,
`decode/impls.rs`). A container is written as its fixed part, with a
four-byte little-endian offset in place of each variable-length field,
followed by the variable fields' bytes (`SszEncoder`); it is read back by
cutting the bytes at those offsets (`SszDecoderBuilder`). A list of
fixed-length items is their bytes one after another, read back in chunks of
the item length; a list of variable-length items is a container of its
items, read back by `decode_list_of_variable_length_items`.

An offset is the low four bytes of the position it stands for
(`encode_length`), so a round trip holds only while every offset a value
writes is below `2 ^ 32`.

## Main results

* `readOffset_encodeLength`: an offset below `2 ^ 32` reads back.
* `decodeContainer_encodeContainer`: the builder cuts a container's bytes
  into the bytes of its fields, when its offsets fit.
* `decodeListOfVariableLengthItems_encodeVec`, `chunks_flatten`: both
  kinds of list read back item by item.
-/

namespace ZgStorage.Ssz

/-- `BYTES_PER_LENGTH_OFFSET`. -/
def bytesPerLengthOffset : Nat := 4

/-- `DecodeError`, with the variants the decoders here return. -/
inductive DecodeError where
  | invalidByteLength (len expected : Nat)
  | invalidLengthPrefix (len expected : Nat)
  | outOfBoundsByte (i : Nat)
  | offsetIntoFixedPortion (offset : Nat)
  | offsetSkipsVariableBytes (offset : Nat)
  | offsetsAreDecreasing (offset : Nat)
  | offsetOutOfBounds (offset : Nat)
  | invalidListFixedBytesLen (offset : Nat)
  | zeroLengthItem
  | bytesInvalid (msg : String)
  deriving DecidableEq, Repr

/-- How a decoder fails: it returns a `DecodeError`, or panics. -/
inductive Failure where
  | decode (e : DecodeError)
  | panic (msg : String)
  deriving DecidableEq, Repr

/-! ### Integers and offsets -/

/-- `to_le_bytes` of an unsigned integer of `width` bytes. -/
def leBytes (width n : Nat) : List UInt8 := (List.range width).map fun i => UInt8.ofNat (n / 256 ^ i)

/-- `from_le_bytes`. -/
def fromLeBytes (bytes : List UInt8) : Nat := bytes.foldr (fun b acc => b.toNat + 256 * acc) 0

/-- `encode_length`: the four low bytes of the `usize`, with no check (its
`debug_assert!` is off in the builds of this repository). -/
def encodeLength (len : Nat) : List UInt8 := (leBytes 8 len).take bytesPerLengthOffset

/-- `decode_offset`. -/
def decodeOffset (bytes : List UInt8) : Except Failure Nat :=
  if bytes.length ≠ bytesPerLengthOffset then
    throw (.decode (.invalidLengthPrefix bytes.length bytesPerLengthOffset))
  else pure (fromLeBytes bytes)

/-- `read_offset`. -/
def readOffset (bytes : List UInt8) : Except Failure Nat :=
  if bytes.length < bytesPerLengthOffset then
    throw (.decode (.invalidLengthPrefix bytes.length bytesPerLengthOffset))
  else decodeOffset (bytes.take bytesPerLengthOffset)

/-- `sanitize_offset`. -/
def sanitizeOffset (offset : Nat) (previousOffset : Option Nat) (numBytes : Nat) (numFixedBytes : Option Nat) :
    Except Failure Nat :=
  if numFixedBytes.any (offset < ·) then throw (.decode (.offsetIntoFixedPortion offset))
  else if previousOffset.isNone && numFixedBytes.any (offset ≠ ·) then
    throw (.decode (.offsetSkipsVariableBytes offset))
  else if offset > numBytes then throw (.decode (.offsetOutOfBounds offset))
  else if previousOffset.any (· > offset) then throw (.decode (.offsetsAreDecreasing offset))
  else pure offset

theorem length_leBytes (width n : Nat) : (leBytes width n).length = width := by
  simp [leBytes]

theorem leBytes_succ (width n : Nat) : leBytes (width + 1) n = UInt8.ofNat n :: leBytes width (n / 256) := by
  simp only [leBytes, List.range_succ_eq_map, List.map_cons, List.map_map, pow_zero, Nat.div_one]
  congr 1
  apply List.map_congr_left
  intro i _
  simp [Nat.div_div_eq_div_mul, pow_succ']

/-- The bytes of an integer read back as the integer, modulo the width. -/
theorem fromLeBytes_leBytes (width n : Nat) : fromLeBytes (leBytes width n) = n % 256 ^ width := by
  induction width generalizing n with
  | zero => simp [leBytes, fromLeBytes, Nat.mod_one]
  | succ w ih =>
    rw [leBytes_succ, fromLeBytes, List.foldr_cons, ← fromLeBytes, ih, UInt8.toNat_ofNat',
      show 256 ^ (w + 1) = 256 * 256 ^ w from pow_succ' 256 w, Nat.mod_mul (a := 256) (b := 256 ^ w)]

theorem encodeLength_eq (len : Nat) : encodeLength len = leBytes bytesPerLengthOffset len := by
  simp only [encodeLength, leBytes, bytesPerLengthOffset, ← List.map_take, List.take_range]
  rfl

@[simp] theorem length_encodeLength (len : Nat) : (encodeLength len).length = bytesPerLengthOffset := by
  rw [encodeLength_eq, length_leBytes]

/-- An offset reads back modulo `2 ^ 32` from the front of the bytes. -/
theorem readOffset_encodeLength_mod (len : Nat) (rest : List UInt8) :
    readOffset (encodeLength len ++ rest) = .ok (len % 2 ^ 32) := by
  have hlen := length_encodeLength len
  rw [readOffset, if_neg (by simp [hlen]), List.take_left' hlen, decodeOffset, if_neg (by simp [hlen]),
    encodeLength_eq, fromLeBytes_leBytes]
  rfl

/-- An offset below `2 ^ 32` reads back from the front of the bytes. -/
theorem readOffset_encodeLength {len : Nat} (h : len < 2 ^ 32) (rest : List UInt8) :
    readOffset (encodeLength len ++ rest) = .ok len := by
  rw [readOffset_encodeLength_mod, Nat.mod_eq_of_lt h]

/-- `from_ssz_bytes` of an unsigned integer of `width` bytes. -/
def decodeUint (width : Nat) (bytes : List UInt8) : Except Failure Nat :=
  if bytes.length ≠ width then throw (.decode (.invalidByteLength bytes.length width))
  else pure (fromLeBytes bytes)

/-- An integer that fits its width reads back. -/
theorem decodeUint_leBytes {width n : Nat} (h : n < 256 ^ width) : decodeUint width (leBytes width n) = .ok n := by
  rw [decodeUint, if_neg (by rw [length_leBytes]; exact not_not_intro rfl), fromLeBytes_leBytes,
    Nat.mod_eq_of_lt h]
  rfl

/-! ### Containers -/

/-- `SszEncoder`: the fixed part written so far, the variable bytes held
back, and the offset the first of them will stand at. -/
structure SszEncoder where
  offset : Nat
  buf : List UInt8
  variableBytes : List UInt8

namespace SszEncoder

/-- `SszEncoder::container`. -/
def container (buf : List UInt8) (numFixedBytes : Nat) : SszEncoder := ⟨numFixedBytes, buf, []⟩

/-- `append_parameterized`, with the bytes the item's `ssz_append` appends. -/
def appendParameterized (e : SszEncoder) (isSszFixedLen : Bool) (bytes : List UInt8) : SszEncoder :=
  if isSszFixedLen then { e with buf := e.buf ++ bytes }
  else { e with
    buf := e.buf ++ encodeLength (e.offset + e.variableBytes.length)
    variableBytes := e.variableBytes ++ bytes }

/-- `finalize`. -/
def finalize (e : SszEncoder) : List UInt8 := e.buf ++ e.variableBytes

end SszEncoder

/-- A field of a container as the derived code sees it: whether its type is
of fixed length, its `ssz_fixed_len`, and the bytes its `ssz_append`
appends. -/
structure Field where
  isSszFixedLen : Bool
  sszFixedLen : Nat
  bytes : List UInt8

/-- The derived `ssz_append` of a container: an encoder over the sum of the
fields' `ssz_fixed_len`, each field appended in turn. -/
def encodeContainer (fields : List Field) : List UInt8 :=
  (fields.foldl (fun e f => e.appendParameterized f.isSszFixedLen f.bytes)
    (SszEncoder.container [] (fields.map Field.sszFixedLen).sum)).finalize

/-- `Offset`: a variable field's place among the items, and its offset. -/
structure Offset where
  position : Nat
  offset : Nat

/-- `SszDecoderBuilder`. -/
structure SszDecoderBuilder where
  bytes : List UInt8
  items : List (List UInt8)
  offsets : List Offset
  itemsIndex : Nat

namespace SszDecoderBuilder

/-- `SszDecoderBuilder::new`. -/
def new (bytes : List UInt8) : SszDecoderBuilder := ⟨bytes, [], [], 0⟩

/-- `register_type_parameterized`. -/
def registerTypeParameterized (b : SszDecoderBuilder) (isSszFixedLen : Bool) (sszFixedLen : Nat) :
    Except Failure SszDecoderBuilder :=
  if isSszFixedLen then
    if b.itemsIndex + sszFixedLen ≤ b.bytes.length then
      pure { b with
        items := b.items ++ [(b.bytes.drop b.itemsIndex).take sszFixedLen]
        itemsIndex := b.itemsIndex + sszFixedLen }
    else throw (.decode (.invalidByteLength b.bytes.length (b.itemsIndex + sszFixedLen)))
  -- `&self.bytes[self.items_index..]`
  else if b.bytes.length < b.itemsIndex then
    throw (.panic ("range start index " ++ toString b.itemsIndex ++ " out of range for slice of length " ++
      toString b.bytes.length))
  else do
    let offset ← readOffset (b.bytes.drop b.itemsIndex)
    let offset ← sanitizeOffset offset (b.offsets.getLast?.map Offset.offset) b.bytes.length none
    -- an empty slice stands in the item's place until `finalize`
    pure { b with
      offsets := b.offsets ++ [⟨b.items.length, offset⟩]
      items := b.items ++ [[]]
      itemsIndex := b.itemsIndex + bytesPerLengthOffset }

/-- The slices of `finalize`: from each offset to the next, and from the
last one to the end. -/
def sliceItems (bytes : List UInt8) : List Offset → List (List UInt8) → List (List UInt8)
  | [], items => items
  | [a], items => items.set a.position (bytes.drop a.offset)
  | a :: b :: rest, items =>
    sliceItems bytes (b :: rest) (items.set a.position ((bytes.drop a.offset).take (b.offset - a.offset)))

/-- `finalize`: the first offset must follow the fixed part, and a
container with no offsets must end there. -/
def finalize (b : SszDecoderBuilder) : Except Failure SszDecoderBuilder :=
  b.offsets.head?.elim
    (if b.itemsIndex ≠ b.bytes.length then throw (.decode (.invalidByteLength b.bytes.length b.itemsIndex))
      else pure b)
    fun first =>
      if first.offset < b.itemsIndex then throw (.decode (.offsetIntoFixedPortion first.offset))
      else if first.offset > b.itemsIndex then throw (.decode (.offsetSkipsVariableBytes first.offset))
      else pure { b with items := sliceItems b.bytes b.offsets b.items }

/-- `build`: the slices the `SszDecoder` hands out in turn. -/
def build (b : SszDecoderBuilder) : Except Failure (List (List UInt8)) := do
  let b ← b.finalize
  pure b.items

end SszDecoderBuilder

/-- The builder of a derived `from_ssz_bytes`: each field's type registered
in turn (whether it is of fixed length, and its `ssz_fixed_len`), then the
slice of each field. -/
def decodeContainer (shape : List (Bool × Nat)) (bytes : List UInt8) : Except Failure (List (List UInt8)) := do
  let b ← shape.foldlM (fun b s => b.registerTypeParameterized s.1 s.2) (SszDecoderBuilder.new bytes)
  b.build

/-- `SszDecoder::decode_next_with`: the next slice of a container, read by
`f`. -/
def decodeNext {α : Type} (f : List UInt8 → Except Failure α) :
    List (List UInt8) → Except Failure (α × List (List UInt8))
  | [] => throw (.panic "removal index (is 0) should be < len (is 0)")
  | slice :: items => do
    let a ← f slice
    pure (a, items)

/-! ### Lists -/

/-- `slice.chunks(size)`: pieces of `size` elements, the last one shorter. -/
def chunks {α : Type} (size : Nat) (xs : List α) : List (List α) :=
  if _h : size = 0 ∨ xs = [] then [] else xs.take size :: chunks size (xs.drop size)
termination_by xs.length
decreasing_by
  have hsize := Nat.pos_of_ne_zero (not_or.mp _h).1
  have hxs := List.length_pos_of_ne_nil (not_or.mp _h).2
  rw [List.length_drop]
  omega

/-- An item of a list of variable-length items, as the container of the
list sees it. -/
def varField (bytes : List UInt8) : Field := ⟨false, bytesPerLengthOffset, bytes⟩

/-- `ssz_append` of a `Vec`: the items' bytes one after another when the
item type is of fixed length, and otherwise a container of the items, the
offsets taking `len * BYTES_PER_LENGTH_OFFSET` bytes. -/
def encodeVec (isSszFixedLen : Bool) (items : List (List UInt8)) : List UInt8 :=
  if isSszFixedLen then items.flatten else encodeContainer (items.map varField)

/-- One turn of the loop of `decode_list_of_variable_length_items`: item
`i - 1` runs from the current offset to the offset read at `i`, or to the
end for the last item. -/
def listItemStep {α : Type} (decode : List UInt8 → Except Failure α) (bytes : List UInt8)
    (firstOffset numItems : Nat) (state : Nat × List α) (i : Nat) : Except Failure (Nat × List α) := do
  let (offset, values) := state
  let (offset, sliceOption) ← if i = numItems then
      pure (offset, if offset ≤ bytes.length then some (bytes.drop offset) else none)
    -- `&bytes[(i * BYTES_PER_LENGTH_OFFSET)..]`
    else if bytes.length < i * bytesPerLengthOffset then
      throw (.panic ("range start index " ++ toString (i * bytesPerLengthOffset) ++
        " out of range for slice of length " ++ toString bytes.length))
    else do
      let start := offset
      let nextOffset ← readOffset (bytes.drop (i * bytesPerLengthOffset))
      let offset ← sanitizeOffset nextOffset (some offset) bytes.length (some firstOffset)
      pure (offset, if start ≤ offset ∧ offset ≤ bytes.length then some ((bytes.drop start).take (offset - start))
        else none)
  let some slice := sliceOption | throw (.decode (.outOfBoundsByte offset))
  let value ← decode slice
  pure (offset, values ++ [value])

/-- `decode_list_of_variable_length_items`. -/
def decodeListOfVariableLengthItems {α : Type} (decode : List UInt8 → Except Failure α) (maxLen : Option Nat)
    (bytes : List UInt8) : Except Failure (List α) := do
  if bytes.isEmpty then return []
  let firstOffset ← readOffset bytes
  let _ ← sanitizeOffset firstOffset none bytes.length (some firstOffset)
  if firstOffset % bytesPerLengthOffset ≠ 0 ∨ firstOffset < bytesPerLengthOffset then
    throw (.decode (.invalidListFixedBytesLen firstOffset))
  let numItems := firstOffset / bytesPerLengthOffset
  if maxLen.any (numItems > ·) then
    throw (.decode (.bytesInvalid ("Variable length list of " ++ toString numItems ++
      " items exceeds maximum of Some(" ++ toString (maxLen.getD 0) ++ ")")))
  let (_, values) ← (List.range' 1 numItems).foldlM (listItemStep decode bytes firstOffset numItems)
    (firstOffset, [])
  return values

/-- `from_ssz_bytes` of a `Vec` of items decoded by `decode`. -/
def decodeVec {α : Type} (isSszFixedLen : Bool) (sszFixedLen : Nat) (decode : List UInt8 → Except Failure α)
    (bytes : List UInt8) : Except Failure (List α) :=
  if bytes.isEmpty then pure []
  else if isSszFixedLen then
    if sszFixedLen = 0 then throw (.panic "chunk size must be non-zero")
    else (chunks sszFixedLen bytes).mapM decode
  else decodeListOfVariableLengthItems decode none bytes

/-! ### The layout of a container -/

namespace Field

/-- What a field puts in the fixed part, the variable bytes before it being
`acc` long: its bytes, or the offset of its bytes. -/
def header (N acc : Nat) (f : Field) : List UInt8 := if f.isSszFixedLen then f.bytes else encodeLength (N + acc)

/-- What a field puts in the variable part. -/
def varBytes (f : Field) : List UInt8 := if f.isSszFixedLen then [] else f.bytes

/-- The slice the builder holds for a field before `finalize`. -/
def placeholder (f : Field) : List UInt8 := if f.isSszFixedLen then f.bytes else []

/-- The bytes of a field of fixed length are as long as its type says; a
field of variable length takes an offset in the fixed part. -/
def WellSized (f : Field) : Prop :=
  if f.isSszFixedLen then f.bytes.length = f.sszFixedLen else f.sszFixedLen = bytesPerLengthOffset

theorem length_header {f : Field} (h : f.WellSized) (N acc : Nat) : (f.header N acc).length = f.sszFixedLen := by
  unfold header
  unfold WellSized at h
  split
  · rename_i hf
    rw [if_pos hf] at h
    exact h
  · rename_i hf
    rw [if_neg hf] at h
    rw [h, length_encodeLength]

end Field

/-- The fixed part of a container whose variable part starts at `N`. -/
def fixedPart (N : Nat) : Nat → List Field → List UInt8
  | _, [] => []
  | acc, f :: fs => f.header N acc ++ fixedPart N (acc + f.varBytes.length) fs

/-- The variable part of a container. -/
def variablePart (fields : List Field) : List UInt8 := fields.flatMap Field.varBytes

@[simp] theorem variablePart_cons (f : Field) (fs : List Field) :
    variablePart (f :: fs) = f.varBytes ++ variablePart fs := List.flatMap_cons

/-- The offsets the builder records for `fields`, the first of them being
item `pos`, after `acc` variable bytes. -/
def offsetsOf (N : Nat) : Nat → Nat → List Field → List Offset
  | _, _, [] => []
  | pos, acc, f :: fs =>
    if f.isSszFixedLen then offsetsOf N (pos + 1) acc fs
    else ⟨pos, N + acc⟩ :: offsetsOf N (pos + 1) (acc + f.bytes.length) fs

theorem length_fixedPart (N : Nat) :
    ∀ (acc : Nat) (fields : List Field), (∀ f ∈ fields, f.WellSized) →
      (fixedPart N acc fields).length = (fields.map Field.sszFixedLen).sum
  | _, [], _ => rfl
  | acc, f :: fs, h => by
    rw [fixedPart, List.length_append, f.length_header (h f List.mem_cons_self),
      length_fixedPart N _ fs fun g hg => h g (List.mem_cons_of_mem f hg)]
    rfl

/-- The encoder writes the fixed part, then the variable part. -/
theorem foldl_appendParameterized (N : Nat) :
    ∀ (fields : List Field) (buf vb : List UInt8),
      fields.foldl (fun (e : SszEncoder) (f : Field) => e.appendParameterized f.isSszFixedLen f.bytes)
          ⟨N, buf, vb⟩ =
        ⟨N, buf ++ fixedPart N vb.length fields, vb ++ variablePart fields⟩
  | [], buf, vb => by simp [fixedPart, variablePart]
  | f :: fs, buf, vb => by
    have hstep : SszEncoder.appendParameterized ⟨N, buf, vb⟩ f.isSszFixedLen f.bytes =
        ⟨N, buf ++ f.header N vb.length, vb ++ f.varBytes⟩ := by
      unfold SszEncoder.appendParameterized Field.header Field.varBytes
      cases f.isSszFixedLen <;> simp
    rw [List.foldl_cons, hstep, foldl_appendParameterized N fs, List.length_append]
    simp [fixedPart, variablePart]

theorem encodeContainer_eq (fields : List Field) :
    encodeContainer fields = fixedPart (fields.map Field.sszFixedLen).sum 0 fields ++ variablePart fields := by
  rw [encodeContainer, SszEncoder.container, foldl_appendParameterized]
  simp [SszEncoder.finalize]

section AllFixed

variable {fields : List Field} (h : ∀ f ∈ fields, f.isSszFixedLen = true)
include h

theorem variablePart_of_fixed : variablePart fields = [] := by
  simp only [variablePart, List.flatMap_eq_nil_iff, Field.varBytes]
  intro f hf
  rw [if_pos (h f hf)]

theorem map_placeholder_of_fixed : fields.map Field.placeholder = fields.map Field.bytes := by
  apply List.map_congr_left
  intro f hf
  simp [Field.placeholder, h f hf]

end AllFixed

theorem offsetsOf_eq_nil_iff (N : Nat) :
    ∀ (pos acc : Nat) (fields : List Field),
      offsetsOf N pos acc fields = [] ↔ ∀ f ∈ fields, f.isSszFixedLen = true
  | _, _, [] => by simp [offsetsOf]
  | pos, acc, f :: fs => by
    unfold offsetsOf
    cases hf : f.isSszFixedLen
    · simp [hf]
    · simp [hf, offsetsOf_eq_nil_iff N (pos + 1) acc fs]

/-- The first offset recorded is where the variable bytes so far end. -/
theorem offset_of_head?_offsetsOf (N : Nat) {o : Offset} :
    ∀ (pos acc : Nat) (fields : List Field), (offsetsOf N pos acc fields).head? = some o → o.offset = N + acc
  | _, _, [], h => by simp [offsetsOf] at h
  | pos, acc, f :: fs, h => by
    unfold offsetsOf at h
    cases hf : f.isSszFixedLen
    · simp only [hf, Bool.false_eq_true, if_false, List.head?_cons, Option.some.injEq] at h
      rw [← h]
    · simp only [hf, if_true] at h
      exact offset_of_head?_offsetsOf N (pos + 1) acc fs h

/-- Registering the fields of a container whose fixed part the bytes hold
from `idx` on: each fixed field takes its bytes, each variable one records
its offset. -/
theorem foldlM_register {bytes : List UInt8} {N : Nat} :
    ∀ (fields : List Field) (items : List (List UInt8)) (offsets : List Offset) (idx acc : Nat),
      (∀ f ∈ fields, f.WellSized) →
      (bytes.drop idx).take (fixedPart N acc fields).length = fixedPart N acc fields →
      idx + (fixedPart N acc fields).length ≤ bytes.length →
      (∀ o ∈ offsets.getLast?, o.offset ≤ N + acc) →
      N + acc + (variablePart fields).length ≤ bytes.length →
      (∀ (j : Nat) (hj : j < fields.length), fields[j].isSszFixedLen = false →
        N + acc + (variablePart (fields.take j)).length < 2 ^ 32) →
      (fields.map fun f => (f.isSszFixedLen, f.sszFixedLen)).foldlM
          (fun (b : SszDecoderBuilder) (s : Bool × Nat) => b.registerTypeParameterized s.1 s.2)
          ⟨bytes, items, offsets, idx⟩ =
        Except.ok ⟨bytes, items ++ fields.map Field.placeholder,
          offsets ++ offsetsOf N items.length acc fields, idx + (fixedPart N acc fields).length⟩
  | [], items, offsets, idx, acc, _, _, _, _, _, _ => by simp [fixedPart, offsetsOf]
  | f :: fs, items, offsets, idx, acc, hsize, hpre, hroom, hlast, hlen, hfit => by
    have hwf := hsize f List.mem_cons_self
    have hhead := f.length_header hwf N acc
    have hsize' : ∀ g ∈ fs, g.WellSized := fun g hg => hsize g (List.mem_cons_of_mem f hg)
    rw [fixedPart] at hpre hroom ⊢
    rw [List.length_append] at hroom
    -- the bytes from `idx` hold the field's header, then the other fields' fixed part
    rw [List.length_append, List.take_add] at hpre
    obtain ⟨hpre₁, hpre₂⟩ := List.append_inj hpre (by rw [List.length_take, List.length_drop]; omega)
    rw [List.drop_drop] at hpre₂
    rw [List.map_cons, List.foldlM_cons]
    have hfit₀ := hfit 0 (by simp)
    simp only [List.take_zero, variablePart, List.flatMap_nil, List.length_nil, Nat.add_zero,
      List.getElem_cons_zero] at hfit₀
    cases hf : f.isSszFixedLen with
    | true =>
      -- a field of fixed length: its bytes are its header
      have hbytes : f.header N acc = f.bytes := by simp [Field.header, hf]
      have hvar : f.varBytes = [] := by simp [Field.varBytes, hf]
      have hflen : f.bytes.length = f.sszFixedLen := by simpa [Field.WellSized, hf] using hwf
      have hreg : SszDecoderBuilder.registerTypeParameterized ⟨bytes, items, offsets, idx⟩ true f.sszFixedLen =
          .ok ⟨bytes, items ++ [f.bytes], offsets, idx + f.sszFixedLen⟩ := by
        rw [SszDecoderBuilder.registerTypeParameterized, if_pos rfl,
          if_pos (by show idx + f.sszFixedLen ≤ bytes.length; omega)]
        simp only [← hflen, ← hbytes, hpre₁]
        rfl
      show (SszDecoderBuilder.registerTypeParameterized ⟨bytes, items, offsets, idx⟩ true f.sszFixedLen >>= _) = _
      rw [hvar, List.length_nil, Nat.add_zero, hhead] at hpre₂ hroom
      rw [hreg, Except.ok_bind,
        foldlM_register fs (items ++ [f.bytes]) offsets (idx + f.sszFixedLen) acc hsize' hpre₂ (by omega) hlast ?_ ?_]
      · simp [Field.placeholder, hf, offsetsOf, hhead, hvar, Nat.add_assoc]
      · rw [variablePart_cons, hvar, List.nil_append] at hlen
        exact hlen
      · intro j hj hfj
        have := hfit (j + 1) (by simp; omega) hfj
        rwa [List.take_succ_cons, variablePart_cons, hvar, List.nil_append] at this
    | false =>
      -- a field of variable length: its header is the offset of its bytes
      have hbytes : f.header N acc = encodeLength (N + acc) := by simp [Field.header, hf]
      have hvar : f.varBytes = f.bytes := by simp [Field.varBytes, hf]
      have h4 : (f.header N acc).length = bytesPerLengthOffset := by rw [hbytes, length_encodeLength]
      rw [h4, hbytes] at hpre₁
      rw [variablePart_cons, hvar, List.length_append] at hlen
      have hoff : readOffset (bytes.drop idx) = .ok (N + acc) := by
        rw [← List.take_append_drop bytesPerLengthOffset (bytes.drop idx), hpre₁]
        exact readOffset_encodeLength (hfit₀ hf) _
      have hsan : sanitizeOffset (N + acc) (offsets.getLast?.map Offset.offset) bytes.length none =
          .ok (N + acc) := by
        rw [sanitizeOffset, if_neg (by simp), if_neg (by simp), if_neg (by omega), if_neg]
        · rfl
        · cases hl : offsets.getLast? with
          | none => simp
          | some o => simpa using hlast o hl
      have hreg : SszDecoderBuilder.registerTypeParameterized ⟨bytes, items, offsets, idx⟩ false f.sszFixedLen =
          .ok ⟨bytes, items ++ [[]], offsets ++ [⟨items.length, N + acc⟩], idx + bytesPerLengthOffset⟩ := by
        rw [SszDecoderBuilder.registerTypeParameterized, if_neg Bool.false_ne_true,
          if_neg (by show ¬bytes.length < idx; omega)]
        dsimp only
        rw [hoff, Except.ok_bind, hsan, Except.ok_bind]
        rfl
      show (SszDecoderBuilder.registerTypeParameterized ⟨bytes, items, offsets, idx⟩ false f.sszFixedLen >>= _) = _
      rw [hvar, h4] at hpre₂ hroom
      rw [hreg, Except.ok_bind,
        foldlM_register fs (items ++ [[]]) (offsets ++ [(⟨items.length, N + acc⟩ : Offset)]) (idx + bytesPerLengthOffset)
          (acc + f.bytes.length) hsize' hpre₂ (by omega) ?_ (by omega) ?_]
      · simp [Field.placeholder, hf, offsetsOf, h4, hvar, Nat.add_assoc]
      · intro o ho
        simp only [List.getLast?_append, List.getLast?_singleton, Option.some_or, Option.mem_def,
          Option.some.injEq] at ho
        rw [← ho]
        show N + acc ≤ N + (acc + f.bytes.length)
        omega
      · intro j hj hfj
        have := hfit (j + 1) (by simp; omega) hfj
        rw [List.take_succ_cons, variablePart_cons, hvar, List.length_append] at this
        omega

/-- One step of `finalize`'s slicing: the first offset's item is cut up to
the next offset, or to the end. -/
theorem sliceItems_cons (bytes : List UInt8) (a : Offset) (os : List Offset) (items : List (List UInt8)) :
    SszDecoderBuilder.sliceItems bytes (a :: os) items =
      SszDecoderBuilder.sliceItems bytes os (items.set a.position
        (os.head?.elim (bytes.drop a.offset) fun b => (bytes.drop a.offset).take (b.offset - a.offset))) := by
  cases os <;> rfl

/-- Slicing at the recorded offsets puts each variable field's bytes in
its placeholder. -/
theorem sliceItems_offsetsOf {bytes : List UInt8} {N : Nat} :
    ∀ (fields : List Field) (pre : List (List UInt8)) (acc : Nat),
      bytes.drop (N + acc) = variablePart fields →
      SszDecoderBuilder.sliceItems bytes (offsetsOf N pre.length acc fields) (pre ++ fields.map Field.placeholder) =
        pre ++ fields.map Field.bytes
  | [], pre, _, _ => by simp [offsetsOf, SszDecoderBuilder.sliceItems]
  | f :: fs, pre, acc, hvar => by
    rw [variablePart_cons] at hvar
    unfold offsetsOf
    cases hf : f.isSszFixedLen with
    | true =>
      have hph : f.placeholder = f.bytes := by simp [Field.placeholder, hf]
      have := sliceItems_offsetsOf fs (pre ++ [f.bytes]) acc (by simpa [Field.varBytes, hf] using hvar)
      simp only [List.length_append, List.length_singleton, List.append_assoc, List.singleton_append] at this
      rw [if_pos rfl, List.map_cons, hph, List.map_cons]
      exact this
    | false =>
      have hph : f.placeholder = [] := by simp [Field.placeholder, hf]
      rw [Field.varBytes, if_neg (by simp [hf])] at hvar
      -- the slice of this field ends where the next offset, if any, starts
      have hslice : ((offsetsOf N (pre.length + 1) (acc + f.bytes.length) fs).head?.elim (bytes.drop (N + acc))
          fun b => (bytes.drop (N + acc)).take (b.offset - (N + acc))) = f.bytes := by
        cases hhead : (offsetsOf N (pre.length + 1) (acc + f.bytes.length) fs).head? with
        | none =>
          have hall := (offsetsOf_eq_nil_iff N _ _ fs).mp (List.head?_eq_none_iff.mp hhead)
          rw [Option.elim_none, hvar, variablePart_of_fixed hall, List.append_nil]
        | some b =>
          rw [Option.elim_some, offset_of_head?_offsetsOf N _ _ fs hhead, hvar,
            show N + (acc + f.bytes.length) - (N + acc) = f.bytes.length by omega, List.take_left]
      have hdrop : bytes.drop (N + (acc + f.bytes.length)) = variablePart fs := by
        rw [← Nat.add_assoc, ← List.drop_drop, hvar, List.drop_left]
      have := sliceItems_offsetsOf fs (pre ++ [f.bytes]) (acc + f.bytes.length) hdrop
      simp only [List.length_append, List.length_singleton, List.append_assoc, List.singleton_append] at this
      rw [if_neg (by simp), sliceItems_cons, hslice, List.map_cons, hph, List.set_append_right _ _ (le_refl _),
        Nat.sub_self, List.set_cons_zero, List.map_cons]
      exact this

/-- A container reads back as its fields' bytes, when its fields are as
long as their types say and every offset it writes is below `2 ^ 32`. -/
theorem decodeContainer_encodeContainer {fields : List Field} (hsize : ∀ f ∈ fields, f.WellSized)
    (hfit : ∀ (j : Nat) (hj : j < fields.length), fields[j].isSszFixedLen = false →
      (fields.map Field.sszFixedLen).sum + (variablePart (fields.take j)).length < 2 ^ 32) :
    decodeContainer (fields.map fun f => (f.isSszFixedLen, f.sszFixedLen)) (encodeContainer fields) =
      .ok (fields.map Field.bytes) := by
  set N := (fields.map Field.sszFixedLen).sum with hN
  have hfixed : (fixedPart N 0 fields).length = N := length_fixedPart N 0 fields hsize
  have henc : encodeContainer fields = fixedPart N 0 fields ++ variablePart fields := encodeContainer_eq fields
  have hlen : (encodeContainer fields).length = N + (variablePart fields).length := by
    rw [henc, List.length_append, hfixed]
  have hreg := @foldlM_register (encodeContainer fields) N fields [] [] 0 0 hsize
    (by rw [henc, List.drop_zero, List.take_left]) (by omega) (by simp) (by omega) (by simpa using hfit)
  rw [decodeContainer, SszDecoderBuilder.new, hreg, Except.ok_bind, SszDecoderBuilder.build,
    SszDecoderBuilder.finalize]
  dsimp only
  rw [List.nil_append, List.nil_append, List.length_nil, Nat.zero_add, hfixed]
  cases hhead : (offsetsOf N 0 0 fields).head? with
  | none =>
    -- no field of variable length: the bytes end with the fixed part
    have hall := (offsetsOf_eq_nil_iff N 0 0 fields).mp (List.head?_eq_none_iff.mp hhead)
    rw [variablePart_of_fixed hall, List.length_nil, Nat.add_zero] at hlen
    rw [Option.elim_none, if_neg (by omega), pure_bind, map_placeholder_of_fixed hall]
    rfl
  | some first =>
    -- the first offset is where the fixed part ends
    have hfirst : first.offset = N + 0 := offset_of_head?_offsetsOf N 0 0 fields hhead
    rw [Option.elim_some, if_neg (by omega), if_neg (by omega), pure_bind]
    have hdrop : (encodeContainer fields).drop (N + 0) = variablePart fields := by
      rw [Nat.add_zero, henc, List.drop_left' hfixed]
    have := sliceItems_offsetsOf fields [] 0 hdrop
    rw [List.nil_append, List.nil_append, List.length_nil] at this
    rw [this]
    rfl

/-! ### Lists read back -/

/-- Items of one nonzero length come back from their bytes in chunks. -/
theorem chunks_flatten {α : Type} {size : Nat} (hsize : 0 < size) :
    ∀ {xss : List (List α)}, (∀ xs ∈ xss, xs.length = size) → chunks size xss.flatten = xss
  | [], _ => by simp [chunks]
  | xs :: xss, h => by
    have hxs : xs.length = size := h xs List.mem_cons_self
    have hne : xs ≠ [] := List.ne_nil_of_length_pos (by omega)
    rw [List.flatten_cons, chunks, dif_neg (by simp [hne]; omega), List.take_left' hxs, List.drop_left' hxs,
      chunks_flatten hsize fun ys hys => h ys (List.mem_cons_of_mem xs hys)]

/-- A nonempty slice no longer than the size is one chunk. -/
theorem chunks_of_length_le {α : Type} {size : Nat} {xs : List α} (hne : xs ≠ []) (hle : xs.length ≤ size) :
    chunks size xs = [xs] := by
  have hsize : 0 < size := Nat.lt_of_lt_of_le (List.length_pos_of_ne_nil hne) hle
  rw [chunks, dif_neg (by simp [hne]; omega), List.take_of_length_le hle, List.drop_eq_nil_of_le hle, chunks,
    dif_pos (Or.inr rfl)]

@[simp] theorem fixedPart_varField_cons (N acc : Nat) (x : List UInt8) (xs : List (List UInt8)) :
    fixedPart N acc ((x :: xs).map varField) = encodeLength (N + acc) ++ fixedPart N (acc + x.length) (xs.map varField) := by
  simp [fixedPart, Field.header, Field.varBytes, varField]

theorem length_fixedPart_varField (N : Nat) :
    ∀ (acc : Nat) (xs : List (List UInt8)), (fixedPart N acc (xs.map varField)).length = bytesPerLengthOffset * xs.length
  | _, [] => by simp [fixedPart]
  | acc, x :: xs => by
    rw [fixedPart_varField_cons, List.length_append, length_encodeLength, length_fixedPart_varField N _ xs,
      List.length_cons, Nat.mul_succ, Nat.add_comm]

theorem variablePart_varField (xs : List (List UInt8)) : variablePart (xs.map varField) = xs.flatten := by
  simp [variablePart, List.flatMap_map, Field.varBytes, varField, List.flatMap_id']

section ListItems

variable {α : Type} {decode : List UInt8 → Except Failure α} {bytes : List UInt8} {N n : Nat}

/-- The loop of `decode_list_of_variable_length_items` from item `i - 1` on,
the bytes from the current offset being the items' bytes and the offsets
after position `i` those of the items after it: each turn reads the next
offset and cuts out one item. -/
theorem foldlM_listItemStep :
    ∀ (xs : List (List UInt8)) (x : List UInt8) (i acc : Nat) (values vs : List α),
      (x :: xs).mapM decode = .ok vs →
      i + xs.length = n →
      N + acc ≤ bytes.length →
      bytes.drop (N + acc) = x ++ xs.flatten →
      (bytes.drop (i * bytesPerLengthOffset)).take (bytesPerLengthOffset * xs.length) =
        fixedPart N (acc + x.length) (xs.map varField) →
      N + acc + ((x :: xs).dropLast.flatten).length < 2 ^ 32 →
      ∃ offset, (List.range' i (xs.length + 1)).foldlM (listItemStep decode bytes N n) (N + acc, values) =
        .ok (offset, values ++ vs)
  | [], x, i, acc, values, vs, hdec, hi, hroom, hbytes, _, _ => by
    -- the last item runs to the end of the bytes
    rw [List.mapM_cons, Except.bind_eq_ok] at hdec
    obtain ⟨v, hv, hdec⟩ := hdec
    simp only [List.mapM_nil, Except.pure_eq_ok, Except.ok_bind, Except.ok.injEq] at hdec
    subst hdec
    refine ⟨N + acc, ?_⟩
    rw [List.flatten_nil, List.append_nil] at hbytes
    have hin : i = n := by simpa using hi
    rw [List.length_nil, Nat.zero_add, List.range'_one]
    simp [listItemStep, hin, hroom, hbytes, hv]
  | y :: ys, x, i, acc, values, vs, hdec, hi, hroom, hbytes, hhdr, hfit => by
    rw [List.mapM_cons, Except.bind_eq_ok] at hdec
    obtain ⟨v, hv, hdec⟩ := hdec
    rw [Except.bind_eq_ok] at hdec
    obtain ⟨vs', hvs', hdec⟩ := hdec
    cases hdec
    rw [List.flatten_cons] at hbytes
    have hlen : bytes.length = N + acc + (x.length + (y ++ ys.flatten).length) := by
      have := congrArg List.length hbytes
      rw [List.length_drop, List.length_append] at this
      omega
    have hx : N + acc + x.length < 2 ^ 32 := by
      rw [List.dropLast_cons_cons, List.flatten_cons, List.length_append] at hfit
      omega
    -- the offset at position `i` is where the next item starts
    rw [fixedPart_varField_cons, List.length_cons, Nat.mul_succ, Nat.add_comm, List.take_add] at hhdr
    obtain ⟨hhdr₁, hhdr₂⟩ := List.append_inj hhdr (by
      rw [List.length_take, List.length_drop, length_encodeLength]
      have := congrArg List.length hhdr
      simp only [List.length_append, List.length_take, List.length_drop, length_encodeLength,
        length_fixedPart_varField] at this
      omega)
    rw [List.drop_drop, show i * bytesPerLengthOffset + bytesPerLengthOffset = (i + 1) * bytesPerLengthOffset by
      rw [Nat.succ_mul]] at hhdr₂
    have hroomi : i * bytesPerLengthOffset ≤ bytes.length := by
      have := congrArg List.length hhdr₁
      rw [List.length_take, List.length_drop, length_encodeLength] at this
      simp [bytesPerLengthOffset] at this ⊢
      omega
    have hoff : readOffset (bytes.drop (i * bytesPerLengthOffset)) = .ok (N + acc + x.length) := by
      rw [← List.take_append_drop bytesPerLengthOffset (bytes.drop (i * bytesPerLengthOffset)), hhdr₁,
        ← Nat.add_assoc]
      exact readOffset_encodeLength hx _
    have hsan : sanitizeOffset (N + acc + x.length) (some (N + acc)) bytes.length (some N) =
        .ok (N + acc + x.length) := by
      simp only [sanitizeOffset, Option.any_some, Option.isNone_some, Bool.false_and]
      rw [if_neg (by simp only [decide_eq_true_eq]; omega), if_neg Bool.false_ne_true, if_neg (by omega),
        if_neg (by simp only [decide_eq_true_eq]; omega)]
      rfl
    have hslice : (bytes.drop (N + acc)).take x.length = x := by
      rw [hbytes, List.take_left]
    have hstep : listItemStep decode bytes N n (N + acc, values) i = .ok (N + acc + x.length, values ++ [v]) := by
      have hin : i ≠ n := by simp at hi; omega
      have hin' : ¬bytes.length < i * bytesPerLengthOffset := by omega
      have hcut : N + acc ≤ N + acc + x.length ∧ N + acc + x.length ≤ bytes.length := ⟨by omega, by omega⟩
      simp [listItemStep, hin, hin', hoff, hsan, hcut, hslice, hv]
    obtain ⟨offset, hrest⟩ := foldlM_listItemStep ys y (i + 1) (acc + x.length) (values ++ [v]) vs' hvs'
      (by simp at hi; omega) (by omega) (by rw [← Nat.add_assoc, ← List.drop_drop, hbytes, List.drop_left])
      hhdr₂ (by
        rw [List.dropLast_cons_cons, List.flatten_cons, List.length_append] at hfit
        omega)
    refine ⟨offset, ?_⟩
    rw [List.length_cons, List.range'_succ, List.foldlM_cons, hstep, Except.ok_bind,
      Nat.add_assoc N acc x.length, hrest, List.append_assoc, List.singleton_append]

end ListItems

theorem sum_sszFixedLen_varField (xs : List (List UInt8)) :
    ((xs.map varField).map Field.sszFixedLen).sum = bytesPerLengthOffset * xs.length := by
  induction xs with
  | nil => rfl
  | cons x xs ih =>
    rw [List.map_cons, List.map_cons, List.sum_cons, ih, List.length_cons, Nat.mul_succ, Nat.add_comm]
    rfl

/-- A list of variable-length items reads back item by item, when its last
offset is below `2 ^ 32`. -/
theorem decodeListOfVariableLengthItems_encodeVec {α : Type} {decode : List UInt8 → Except Failure α}
    {items : List (List UInt8)} {values : List α} (hdec : items.mapM decode = .ok values)
    (hfit : bytesPerLengthOffset * items.length + items.dropLast.flatten.length < 2 ^ 32) :
    decodeListOfVariableLengthItems decode none (encodeVec false items) = .ok values := by
  cases items with
  | nil =>
    simp only [List.mapM_nil, Except.pure_eq_ok, Except.ok.injEq] at hdec
    subst hdec
    rfl
  | cons x xs =>
    set N := bytesPerLengthOffset * (xs.length + 1) with hN
    have henc : encodeVec false (x :: xs) =
        encodeLength N ++ fixedPart N x.length (xs.map varField) ++ (x ++ xs.flatten) := by
      rw [encodeVec, if_neg Bool.false_ne_true, encodeContainer_eq, sum_sszFixedLen_varField,
        variablePart_varField, fixedPart_varField_cons, Nat.add_zero, Nat.zero_add, List.flatten_cons]
      rfl
    have hlen : (encodeVec false (x :: xs)).length = N + (x ++ xs.flatten).length := by
      rw [henc, List.length_append, List.length_append, length_encodeLength, length_fixedPart_varField]
      simp only [hN, bytesPerLengthOffset]
      omega
    have hN32 : N < 2 ^ 32 := by
      simp only [List.length_cons] at hfit
      omega
    have hread : readOffset (encodeVec false (x :: xs)) = .ok N := by
      rw [henc, List.append_assoc]
      exact readOffset_encodeLength hN32 _
    have hsan : sanitizeOffset N none (encodeVec false (x :: xs)).length (some N) = .ok N := by
      simp only [sanitizeOffset, Option.any_some, Option.isNone_none, Option.any_none, Bool.true_and]
      rw [if_neg (by simp), if_neg (by simp), if_neg (by omega), if_neg Bool.false_ne_true]
      rfl
    have hne : (encodeVec false (x :: xs)).isEmpty = false := by
      rw [List.isEmpty_eq_false_iff, ← List.length_pos_iff]
      simp only [hN, bytesPerLengthOffset] at hlen
      omega
    have hnum : N / bytesPerLengthOffset = xs.length + 1 := by
      simp [hN, bytesPerLengthOffset]
    have hfirst : ¬(N % bytesPerLengthOffset ≠ 0 ∨ N < bytesPerLengthOffset) := by
      simp [hN, bytesPerLengthOffset]
    -- the offsets after the first are those of the items after the first
    obtain ⟨offset, hloop⟩ := @foldlM_listItemStep _ decode (encodeVec false (x :: xs))
      N (xs.length + 1) xs x 1 0 [] values hdec (Nat.add_comm 1 _) (by omega)
      (by rw [Nat.add_zero, henc, List.drop_left' (by
        rw [List.length_append, length_encodeLength, length_fixedPart_varField]; simp [hN, bytesPerLengthOffset]; omega)])
      (by
        rw [Nat.one_mul, Nat.zero_add, henc, List.append_assoc, List.drop_left' (length_encodeLength N),
          ← length_fixedPart_varField N x.length xs, List.take_left])
      (by simpa using hfit)
    simp only [Nat.add_zero, List.nil_append] at hloop
    simp only [decodeListOfVariableLengthItems, hne, hread, hsan, hfirst, hnum, Bool.false_eq_true, if_false,
      Except.ok_bind, Option.any_none]
    rw [hloop]
    rfl

/-- `from_ssz_bytes` of a `Vec` of variable-length items is
`decode_list_of_variable_length_items`, the empty list included. -/
theorem decodeVec_false {α : Type} (sszFixedLen : Nat) (decode : List UInt8 → Except Failure α)
    (bytes : List UInt8) : decodeVec false sszFixedLen decode bytes = decodeListOfVariableLengthItems decode none bytes := by
  unfold decodeVec
  cases he : bytes.isEmpty
  · rfl
  · simp [decodeListOfVariableLengthItems, he]

/-- A list of items of one nonzero fixed length reads back item by item. -/
theorem decodeVec_encodeVec_fixed {α : Type} {decode : List UInt8 → Except Failure α} {size : Nat}
    (hsize : 0 < size) {items : List (List UInt8)} {values : List α} (hlen : ∀ x ∈ items, x.length = size)
    (hdec : items.mapM decode = .ok values) :
    decodeVec true size decode (encodeVec true items) = .ok values := by
  rw [decodeVec, encodeVec, if_pos rfl]
  cases items with
  | nil =>
    simp only [List.mapM_nil, Except.pure_eq_ok, Except.ok.injEq] at hdec
    subst hdec
    rfl
  | cons x xs =>
    have hx : x.length = size := hlen x List.mem_cons_self
    have hne : (x :: xs).flatten.isEmpty = false := by
      rw [List.isEmpty_eq_false_iff, List.flatten_cons]
      intro h
      rw [List.append_eq_nil_iff] at h
      rw [h.1] at hx
      simp at hx
      omega
    rw [hne, if_neg Bool.false_ne_true, if_pos rfl, if_neg (by omega), chunks_flatten hsize hlen, hdec]

/-- A list of variable-length items reads back from `Vec`'s decoder. -/
theorem decodeVec_encodeVec_variable {α : Type} {decode : List UInt8 → Except Failure α} (sszFixedLen : Nat)
    {items : List (List UInt8)} {values : List α} (hdec : items.mapM decode = .ok values)
    (hfit : bytesPerLengthOffset * items.length + items.dropLast.flatten.length < 2 ^ 32) :
    decodeVec false sszFixedLen decode (encodeVec false items) = .ok values := by
  rw [decodeVec_false, decodeListOfVariableLengthItems_encodeVec hdec hfit]

@[simp] theorem decodeNext_cons {α : Type} {f : List UInt8 → Except Failure α} {slice : List UInt8} {a : α}
    (h : f slice = .ok a) (items : List (List UInt8)) : decodeNext f (slice :: items) = .ok (a, items) := by
  rw [decodeNext, h]
  rfl

/-- The offsets of a container fit when the last of them does: the one
after the variable bytes of all fields but the last. -/
theorem fits_of_dropLast {fields : List Field}
    (h : (fields.map Field.sszFixedLen).sum + (variablePart fields.dropLast).length < 2 ^ 32) :
    ∀ (j : Nat) (hj : j < fields.length), fields[j].isSszFixedLen = false →
      (fields.map Field.sszFixedLen).sum + (variablePart (fields.take j)).length < 2 ^ 32 := by
  intro j hj _
  -- the fields before `j` are a prefix of all fields but the last
  have hpre : (fields.take j).IsPrefix fields.dropLast := by
    rw [List.dropLast_eq_take]
    exact List.take_prefix_take_left (by omega)
  have hle : (variablePart (fields.take j)).length ≤ (variablePart fields.dropLast).length := by
    obtain ⟨rest, hrest⟩ := hpre
    rw [← hrest]
    simp only [variablePart, List.flatMap_append, List.length_append]
    exact Nat.le_add_right _ _
  omega

/-- A container of fields of fixed length is as long as their lengths add
up to. -/
theorem length_encodeContainer_of_fixed {fields : List Field} (hsize : ∀ f ∈ fields, f.WellSized)
    (hfixed : ∀ f ∈ fields, f.isSszFixedLen = true) :
    (encodeContainer fields).length = (fields.map Field.sszFixedLen).sum := by
  rw [encodeContainer_eq, variablePart_of_fixed hfixed, List.append_nil, length_fixedPart _ _ _ hsize]

/-- A container reads back as its fields' bytes when its last offset fits. -/
theorem decodeContainer_encodeContainer_of_dropLast {fields : List Field} (hsize : ∀ f ∈ fields, f.WellSized)
    (hfit : (fields.map Field.sszFixedLen).sum + (variablePart fields.dropLast).length < 2 ^ 32) :
    decodeContainer (fields.map fun f => (f.isSszFixedLen, f.sszFixedLen)) (encodeContainer fields) =
      .ok (fields.map Field.bytes) :=
  decodeContainer_encodeContainer hsize (fits_of_dropLast hfit)

/-! ### Offsets past `2 ^ 32`

The encoder writes an offset as its four low bytes, so that an offset past
`2 ^ 32` reads back modulo `2 ^ 32`; with two variable-length fields the
decoder then cuts the variable part at the wrong place. -/

/-- Two variable-length fields are their two offsets, then their bytes. -/
theorem encodeContainer_varField_pair (a c : List UInt8) :
    encodeContainer [varField a, varField c] = encodeLength 8 ++ (encodeLength (8 + a.length) ++ (a ++ c)) := by
  simp [encodeContainer_eq, fixedPart, variablePart, Field.header, Field.varBytes, varField, bytesPerLengthOffset]

/-- The decoder of two variable-length fields cuts the bytes after the
offsets where the second offset, read modulo `2 ^ 32`, points. -/
theorem decodeContainer_varPair {m : Nat} {rest : List UInt8} (hm : 8 ≤ m % 2 ^ 32)
    (hle : m % 2 ^ 32 ≤ 8 + rest.length) :
    decodeContainer [(false, bytesPerLengthOffset), (false, bytesPerLengthOffset)]
        (encodeLength 8 ++ (encodeLength m ++ rest)) =
      .ok [rest.take (m % 2 ^ 32 - 8), rest.drop (m % 2 ^ 32 - 8)] := by
  have hr₂ := readOffset_encodeLength_mod m rest
  generalize m % 2 ^ 32 = k at hm hle hr₂ ⊢
  set bytes := encodeLength 8 ++ (encodeLength m ++ rest) with hbytes
  have hpre : (encodeLength 8 ++ encodeLength m).length = 8 := by simp [bytesPerLengthOffset]
  have hlen : bytes.length = 8 + rest.length := by
    rw [hbytes, ← List.append_assoc, List.length_append, hpre]
  -- the first offset is `8` and the second `k`, and both pass `sanitize_offset`
  have h₁ : (SszDecoderBuilder.new bytes).registerTypeParameterized false bytesPerLengthOffset =
      .ok ⟨bytes, [[]], [⟨0, 8⟩], 4⟩ := by
    have hr : readOffset bytes = .ok 8 := readOffset_encodeLength (by decide) _
    simp [SszDecoderBuilder.registerTypeParameterized, SszDecoderBuilder.new, hr, sanitizeOffset, hlen,
      bytesPerLengthOffset]
  have h₂ : SszDecoderBuilder.registerTypeParameterized ⟨bytes, [[]], [⟨0, 8⟩], 4⟩ false bytesPerLengthOffset =
      .ok ⟨bytes, [[], []], [⟨0, 8⟩, ⟨1, k⟩], 8⟩ := by
    have hr : readOffset (bytes.drop 4) = .ok k := by
      have hdrop : bytes.drop 4 = encodeLength m ++ rest := List.drop_left' (length_encodeLength 8)
      rw [hdrop]
      exact hr₂
    simp [SszDecoderBuilder.registerTypeParameterized, hr, sanitizeOffset, hlen, bytesPerLengthOffset,
      Nat.not_lt.mpr hle, Nat.not_lt.mpr hm]
    omega
  -- `finalize` cuts at the two offsets
  have hslice : SszDecoderBuilder.sliceItems bytes [⟨0, 8⟩, ⟨1, k⟩] [[], []] = [rest.take (k - 8), rest.drop (k - 8)] := by
    have hb : bytes = (encodeLength 8 ++ encodeLength m) ++ rest := by rw [hbytes, List.append_assoc]
    have h8 : bytes.drop 8 = rest := by
      rw [hb]
      exact List.drop_left' hpre
    have hk : bytes.drop k = rest.drop (k - 8) := by
      rw [hb, List.drop_append, List.drop_eq_nil_of_le (by omega), hpre, List.nil_append]
    simp [SszDecoderBuilder.sliceItems, h8, hk]
  rw [decodeContainer, List.foldlM_cons, h₁, Except.ok_bind, List.foldlM_cons, h₂, Except.ok_bind, List.foldlM_nil,
    Except.pure_eq_ok, Except.ok_bind, SszDecoderBuilder.build, SszDecoderBuilder.finalize]
  simp [hslice]

end ZgStorage.Ssz
