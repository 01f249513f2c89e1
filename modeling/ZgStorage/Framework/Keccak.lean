import Mathlib.Data.List.Basic

/-!
# Keccak-256

The Keccak-f[1600] permutation on 25 lanes of 64 bits, and the sponge over it
with a rate of 136 bytes and the original Keccak padding (`0x01 … 0x80`, not
the `0x06` of SHA-3): the hash that Ethereum calls Keccak-256. Lane `x + 5 y`
holds the bits of row `y`, column `x`; bytes enter and leave the lanes in
little-endian order.

The round is written as the usual compact loop: `θ`, then `ρ` and `π` as one
walk over the lanes that rotates the lane it carries, then `χ` row by row,
then `ι`.

* `length_keccak256`: the digest has 32 bytes.
-/

namespace Keccak1600

/-- The round constants of the `ι` step, one for each of the 24 rounds. -/
def roundConstants : List UInt64 :=
  [0x0000000000000001, 0x0000000000008082, 0x800000000000808A, 0x8000000080008000,
   0x000000000000808B, 0x0000000080000001, 0x8000000080008081, 0x8000000000008009,
   0x000000000000008A, 0x0000000000000088, 0x0000000080008009, 0x000000008000000A,
   0x000000008000808B, 0x800000000000008B, 0x8000000000008089, 0x8000000000008003,
   0x8000000000008002, 0x8000000000000080, 0x000000000000800A, 0x800000008000000A,
   0x8000000080008081, 0x8000000000008080, 0x0000000080000001, 0x8000000080008008]

/-- The rotation of the lane carried by each step of the `ρ` and `π` walk. -/
def rotations : List UInt64 :=
  [1, 3, 6, 10, 15, 21, 28, 36, 45, 55, 2, 14, 27, 41, 56, 8, 25, 43, 62, 18, 39, 61, 20, 44]

/-- The lane each step of the `ρ` and `π` walk writes, starting from lane 1. -/
def piLanes : List Nat :=
  [10, 7, 11, 17, 18, 3, 5, 16, 8, 21, 24, 4, 15, 23, 19, 13, 12, 2, 20, 14, 22, 9, 6, 1]

/-- Rotation to the left by `n < 64` bits. -/
def rotl (x n : UInt64) : UInt64 := (x <<< n) ||| (x >>> (64 - n))

/-- The 25 lanes. -/
abbrev State := List UInt64

def lane (st : State) (i : Nat) : UInt64 := st.getD i 0

/-- `θ`: each lane takes the parity of the two neighbouring columns. -/
def theta (st : State) : State :=
  let c := fun x => lane st x ^^^ lane st (x + 5) ^^^ lane st (x + 10) ^^^ lane st (x + 15) ^^^
    lane st (x + 20)
  let d := fun x => c ((x + 4) % 5) ^^^ rotl (c ((x + 1) % 5)) 1
  (List.range 25).map fun i => lane st i ^^^ d (i % 5)

/-- `ρ` and `π`: walk the lanes, each step writing the rotated carried lane
and carrying the one it overwrote. -/
def rhoPi (st : State) : State :=
  ((piLanes.zip rotations).foldl (fun (acc : State × UInt64) (j, r) =>
    (acc.1.set j (rotl acc.2 r), lane acc.1 j)) (st, lane st 1)).1

/-- `χ`: each lane mixed with the next two of its row. -/
def chi (st : State) : State :=
  (List.range 25).map fun i =>
    lane st i ^^^ ((~~~ lane st (i / 5 * 5 + (i % 5 + 1) % 5)) &&& lane st (i / 5 * 5 + (i % 5 + 2) % 5))

/-- One round, `ι` last. -/
def round (st : State) (rc : UInt64) : State :=
  let st := chi (rhoPi (theta st))
  st.set 0 (lane st 0 ^^^ rc)

/-- Keccak-f[1600]: the 24 rounds. -/
def permute (st : State) : State := roundConstants.foldl round st

/-- Eight bytes as a lane, the first byte lowest. -/
def bytesToLane (bs : List UInt8) : UInt64 :=
  (List.range 8).foldl (fun acc i => acc ||| ((bs.getD i 0).toUInt64 <<< (8 * i).toUInt64)) 0

/-- A lane as eight bytes, the lowest first. -/
def laneToBytes (w : UInt64) : List UInt8 :=
  (List.range 8).map fun i => (w >>> (8 * i).toUInt64).toUInt8

/-- The rate of Keccak-256 in bytes. -/
def rate : Nat := 136

/-- Absorb one block of `rate` bytes into the first `rate / 8` lanes, then
permute. -/
def absorb (st : State) (block : List UInt8) : State :=
  permute ((List.range 25).map fun i =>
    if i < rate / 8 then lane st i ^^^ bytesToLane ((block.drop (8 * i)).take 8) else lane st i)

/-- Keccak padding to a multiple of the rate: `0x01`, zeros, and `0x80` on
the last byte. -/
def pad (msg : List UInt8) : List UInt8 :=
  let q := rate - msg.length % rate
  if q = 1 then msg ++ [0x81] else msg ++ [0x01] ++ List.replicate (q - 2) 0 ++ [0x80]

/-- Keccak-256: absorb the padded message block by block, and squeeze the
first four lanes. -/
def keccak256 (msg : List UInt8) : List UInt8 :=
  let p := pad msg
  let st := (List.range (p.length / rate)).foldl
    (fun st b => absorb st ((p.drop (rate * b)).take rate)) (List.replicate 25 0)
  ((st.take 4).map laneToBytes).flatten

theorem length_absorb (st : State) (block : List UInt8) : (absorb st block).length = 25 := by
  have hround : ∀ (st : State) (rc : UInt64), (round st rc).length = 25 := by
    intro st rc
    simp [round, chi]
  have hperm : ∀ (cs : List UInt64) (st : State), st.length = 25 → (cs.foldl round st).length = 25 := by
    intro cs
    induction cs with
    | nil => simp
    | cons c cs ih => intro st _; exact ih _ (hround st c)
  exact hperm _ _ (by simp)

/-- The digest has 32 bytes. -/
theorem length_keccak256 (msg : List UInt8) : (keccak256 msg).length = 32 := by
  have hfold : ∀ (bs : List Nat) (st : State), st.length = 25 →
      (bs.foldl (fun st b => absorb st (((pad msg).drop (rate * b)).take rate)) st).length = 25 := by
    intro bs
    induction bs with
    | nil => simp
    | cons b bs ih => intro st _; exact ih _ (length_absorb _ _)
  have hbytes : ∀ ws : List UInt64, (ws.map laneToBytes).flatten.length = 8 * ws.length := by
    intro ws
    induction ws with
    | nil => rfl
    | cons w ws ih =>
      simp only [List.map_cons, List.flatten_cons, List.length_append, ih, List.length_cons]
      simp [laneToBytes]
      omega
  simp only [keccak256]
  rw [hbytes, List.length_take, hfold _ _ List.length_replicate]
  rfl

end Keccak1600
