import Mathlib.Data.Vector.Basic
import ZgStorage.Framework.Keccak
import ZgStorage.AppendMerkle.NodeManager

/-!
# Hash elements and hash algorithms

`merkle_tree.rs` and `sha3.rs`. A tree is generic in its node type `E`
(`HashElement`: a null node for "unknown", and the padding `end_pad` of
each height) and in its hash algorithm `A` (`Algorithm<E>`: `parent`,
`parent_single`, `leaf`). The node runs every tree with `OptionalHash`
nodes and `Sha3Algorithm` (`Merkle` in `shared_types`).

Keccak-256 comes from `tiny_keccak`, outside the repository; it is the
class `Keccak` here, so that results hold for any function of the bytes,
and its instance is the sponge of `Keccak1600`.
`ZERO_HASHES` and `ZERO_HASHES_MAP` are built from it as `merkle_tree.rs`
and `sha3.rs` build them; the table has 64 entries, and `zeroHashes`
extends it to every height (a height of 64 needs more than `2⁶³` leaves).

* `Sha3Algorithm.parent_eq_parentRaw`: the `ZERO_HASHES_MAP` shortcut gives
  what hashing gives;
* `Sha3Algorithm.optional_keepsKnown`: on `OptionalHash`, the parent of
  two known nodes and every padding are known.
-/

namespace ZgStorage

/-- `HashElement`: the padding of each height and the null node. -/
class HashElement (E : Type) where
  endPad : Nat → E
  null : E

/-- `Algorithm<E>`: the hash of two children and of a leaf's bytes. -/
structure Algorithm (E : Type) where
  parent : E → E → E
  leaf : List UInt8 → E

variable {E : Type} [DecidableEq E] [HashElement E]

/-- `HashElement::is_null`. -/
def isNull (e : E) : Bool := decide (e = HashElement.null)

/-- `Algorithm::parent_single`: an odd last node hashed with the padding of
its height. -/
def Algorithm.parentSingle (A : Algorithm E) (r : E) (height : Nat) : E :=
  A.parent r (HashElement.endPad height)

/-- What the tree code relies on to keep known nodes known: the parent of
two known nodes is known, and so is every padding. -/
structure Algorithm.KeepsKnown (A : Algorithm E) : Prop where
  parent : ∀ l r, isNull l = false → isNull r = false → isNull (A.parent l r) = false
  endPad : ∀ h, isNull (HashElement.endPad h : E) = false

theorem Algorithm.KeepsKnown.parentSingle {A : Algorithm E} (hk : A.KeepsKnown) {r : E}
    (hr : isNull r = false) (h : Nat) : isNull (A.parentSingle r h) = false :=
  hk.parent _ _ hr (hk.endPad h)

/-- `H256`: 32 bytes. -/
def H256 := Vector UInt8 32

instance : DecidableEq H256 := inferInstanceAs (DecidableEq (Vector UInt8 32))

instance : Inhabited H256 := inferInstanceAs (Inhabited (Vector UInt8 32))

/-- `H256::zero()`. -/
def H256.zero : H256 := Vector.replicate 32 0

/-- The bytes of a hash. -/
def H256.bytes (h : H256) : List UInt8 := Vector.toList h

/-- Keccak-256 (`tiny_keccak`). -/
class Keccak where
  keccak : List UInt8 → H256

/-- `tiny_keccak::Keccak::v256`. -/
instance : Keccak where
  keccak data := ⟨(Keccak1600.keccak256 data).toArray, by simp [Keccak1600.length_keccak256]⟩

namespace Sha3Algorithm

variable [Keccak]

/-- `Sha3Algorithm::parent_raw`: Keccak-256 of the two hashes. -/
def parentRaw (left right : H256) : H256 := Keccak.keccak (left.bytes ++ right.bytes)

/-- `Sha3Algorithm::leaf_raw`. -/
def leafRaw (data : List UInt8) : H256 := Keccak.keccak data

/-- `ZERO_HASHES[height]`: the root of `2ʰ` leaves of 256 zero bytes. -/
def zeroHashes : Nat → H256
  | 0 => leafRaw (List.replicate 256 0)
  | i + 1 => parentRaw (zeroHashes i) (zeroHashes i)

/-- `ZERO_HASHES_MAP`: `ZERO_HASHES[i - 1] ↦ ZERO_HASHES[i]` for `i` in
`1..64`, inserted in that order, so a later entry replaces an earlier one
with the same key. -/
def zeroHashesMap : List (H256 × H256) :=
  ((List.range 63).map fun i => (zeroHashes i, zeroHashes (i + 1))).reverse

/-- `<Sha3Algorithm as Algorithm<H256>>::parent`. -/
def parent (left right : H256) : H256 :=
  if left = right then
    match zeroHashesMap.lookup left with
    | some v => v
    | none => parentRaw left right
  else parentRaw left right

/-- `<Sha3Algorithm as Algorithm<H256>>::leaf`. -/
def leaf (data : List UInt8) : H256 :=
  if data = List.replicate 256 0 then zeroHashes 0 else leafRaw data

/-- `Sha3Algorithm` on `H256`. -/
def algorithm : Algorithm H256 := ⟨parent, leaf⟩

theorem leaf_eq_leafRaw (data : List UInt8) : leaf data = leafRaw data := by
  unfold leaf
  split
  · rename_i h
    rw [h, zeroHashes]
  · rfl

end Sha3Algorithm

/-- `OptionalHash`: a hash, or `None` for a node that is not known. -/
structure OptionalHash where
  val : Option H256
  deriving DecidableEq

/-- `OptionalHash::some`. -/
def OptionalHash.some (hash : H256) : OptionalHash := ⟨Option.some hash⟩

/-- `OptionalHash::none`. -/
def OptionalHash.none : OptionalHash := ⟨Option.none⟩

/-- `HashElement for OptionalHash`: the padding of height `h` is
`ZERO_HASHES[h]`, the null node is `None`. -/
instance [Keccak] : HashElement OptionalHash where
  endPad h := .some (Sha3Algorithm.zeroHashes h)
  null := .none

namespace Sha3Algorithm

variable [Keccak]

/-- `Sha3Algorithm` on `OptionalHash`: hashing needs both children known. -/
def optional : Algorithm OptionalHash where
  parent left right :=
    match left.val, right.val with
    | some l, some r => .some (parent l r)
    | _, _ => .none
  leaf data := .some (leaf data)

theorem isNull_optional {e : OptionalHash} : isNull e = false ↔ e.val.isSome := by
  obtain ⟨_ | h⟩ := e <;> simp [isNull, HashElement.null, OptionalHash.none]

theorem optional_keepsKnown : (optional : Algorithm OptionalHash).KeepsKnown where
  parent l r hl hr := by
    rw [isNull_optional] at hl hr ⊢
    obtain ⟨_ | a⟩ := l <;> obtain ⟨_ | b⟩ := r <;> simp_all [optional, OptionalHash.some]
  endPad h := by simp [isNull_optional, HashElement.endPad, OptionalHash.some]

end Sha3Algorithm

end ZgStorage
