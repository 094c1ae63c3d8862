/-
# `OData.Proofs.Number.Overflow` — whole numbers that are too long for a double

Of a whole number that does not fit in 64 bits the reader keeps a significand of nineteen or twenty
digits and counts those that are left.  Whether the number is in range is decided by a product of two
rounded factors:

| digits left | |
| :-- | :-- |
| up to 288 | the greatest significand is in range |
| 289 | significands are in range below `leastOverflowing` |
| from 290 on | the least significand is out of range |

So it is a matter of size after all, with one bound for numbers of every length (`leastOutOfRange`).
The bound is not quite where doubles end: it is below the greatest of them, because the significand and
the power of ten are both rounded up there.
-/
import OData.Proofs.Number.Range

namespace OData

namespace Double

/-- The least significand that is out of range if 289 digits are left. -/
def leastOverflowing : Nat := 17976931348623156225

/-- The products that decide the three cases. -/
theorem productCode_endpoints : productCode Json.Number.greatest (10 ^ 288) < codes ∧
    productCode (leastOverflowing - 1) (10 ^ 289) < codes ∧
    codes ≤ productCode leastOverflowing (10 ^ 289) ∧
    codes ≤ productCode (Json.Number.greatest / 10) (10 ^ 290) := by
  decide +kernel

theorem isInfinite_mul_ofNat_iff {m n : Nat} (hm : nearestCode m 1 < codes)
    (hn : nearestCode n 1 < codes) :
    ((ofNat m).mul (ofNat n)).isInfinite = true ↔ codes ≤ productCode m n := by
  rw [ofNat_eq hm, ofNat_eq hn, mul_finite, nearest, ofCode, ← productCode]
  split
  · next hlt => exact iff_of_false Bool.false_ne_true (Nat.not_le_of_lt hlt)
  · next hge => exact iff_of_true rfl (Nat.le_of_not_lt hge)

end Double

namespace Json.Number

open Double

/-- The least whole number that is found to be out of range. -/
@[irreducible] def leastOutOfRange : Nat := leastOverflowing * 10 ^ 289

/-- The greatest double is beyond that. -/
theorem leastOutOfRange_le_greatestWhole : leastOutOfRange ≤ greatestWhole := by
  unfold leastOutOfRange greatestWhole
  decide +kernel

variable {n left m : Nat}

/-- At a place that is a power of ten among doubles, the product decides. -/
theorem scale_isSome_iff_productCode (hn : n ≤ greatest) (hleft : left ≤ 308) :
    (scale (.ofNat n) left).isSome = true ↔ productCode n (10 ^ left) < codes := by
  have hfinite : nearestCode n 1 < codes :=
    nearestCode_lt_codes (Nat.le_trans hn greatest_le_greatestWhole)
  have hpower : nearestCode (10 ^ left) 1 < codes := nearestCode_lt_codes (pow_le_greatestWhole hleft)
  have hstep : (left : Int).natAbs ≤ 308 := by simpa using hleft
  have hinfinite := isInfinite_mul_ofNat_iff hfinite hpower
  rw [scale, if_pos hstep, if_pos (Int.natCast_nonneg left), powerOfTen, Int.natAbs_natCast,
    ← Nat.not_le, ← hinfinite]
  by_cases hproduct : ((Double.ofNat n).mul (Double.ofNat (10 ^ left))).isInfinite = true <;>
    simp [hproduct]

/-- Beyond those places every number but zero is out of range. -/
theorem scale_eq_none_of_lt (hn : 0 < n) (hfits : n ≤ greatest) (hleft : 308 < left) :
    scale (.ofNat n) left = none := by
  have hfinite : nearestCode n 1 < codes :=
    nearestCode_lt_codes (Nat.le_trans hfits greatest_le_greatestWhole)
  have hcode : nearestCode n 1 ≠ 0 := by
    intro hzero
    have hnum := le_numerator_nearestCode hn
    rw [hzero] at hnum
    exact absurd hnum (Nat.not_le_of_lt (Nat.two_pow_pos 1074))
  have hstep : ¬ (left : Int).natAbs ≤ 308 := by simpa using hleft
  have hnonzero : ((Double.ofNat n).eq .zero) = false := by
    rw [ofNat_eq hfinite, Double.zero, Double.eq]
    simpa [Fin.ext_iff] using hcode
  rw [scale, if_neg hstep, hnonzero, if_pos (Int.natCast_nonneg left)]
  rfl

-- The exponents are variables here so that neither power is computed where they are literals.
theorem pow_ten_of_eq_succ {a b : Nat} (h : b = a + 1) : 10 ^ b = 10 * 10 ^ a := by
  rw [h, Nat.pow_succ']

/-! The three rows of the table, each for a number `m` of which the significand `n` was kept. -/

theorem scale_isSome_of_short (hhigh : n ≤ greatest) (hshort : left ≤ 288) :
    (scale (.ofNat n) left).isSome = true := by
  have hcode := productCode_le hhigh (Nat.pow_le_pow_right (n := 10) (j := 288) (by decide) hshort)
  rw [scale_isSome_iff_productCode hhigh (Nat.le_trans hshort (by decide))]
  exact Nat.lt_of_le_of_lt hcode productCode_endpoints.1

theorem lt_leastOutOfRange_of_short (hhigh : n ≤ greatest) (hshort : left ≤ 288)
    (hm' : m < (n + 1) * 10 ^ left) : m < leastOutOfRange := by
  have hsize : n + 1 ≤ leastOverflowing * 10 := by
    rw [greatest] at hhigh
    rw [leastOverflowing]
    omega
  have hpower : 10 ^ left ≤ 10 ^ 288 :=
    Nat.pow_le_pow_right (n := 10) (j := 288) (by decide) hshort
  unfold leastOutOfRange
  calc m < (n + 1) * 10 ^ left := hm'
    _ ≤ leastOverflowing * 10 * 10 ^ 288 := Nat.mul_le_mul hsize hpower
    _ = leastOverflowing * 10 ^ 289 := by
        rw [Nat.mul_assoc, ← pow_ten_of_eq_succ (a := 288) (b := 289) rfl]

theorem scale_isSome_iff_of_edge (hhigh : n ≤ greatest) :
    (scale (.ofNat n) (289 : Nat)).isSome = true ↔ n < leastOverflowing := by
  obtain ⟨-, hbelow, hleast, -⟩ := productCode_endpoints
  rw [scale_isSome_iff_productCode hhigh (by decide)]
  rcases Nat.lt_or_ge n leastOverflowing with hsmall | hlarge
  · have hcode := productCode_le (Nat.le_sub_one_of_lt hsmall) (Nat.le_refl (10 ^ 289))
    exact iff_of_true (Nat.lt_of_le_of_lt hcode hbelow) hsmall
  · have hcode := productCode_le hlarge (Nat.le_refl (10 ^ 289))
    exact iff_of_false (Nat.not_lt_of_le (Nat.le_trans hleast hcode)) (Nat.not_lt_of_le hlarge)

theorem lt_leastOutOfRange_iff_of_edge (hm : n * 10 ^ 289 ≤ m) (hm' : m < (n + 1) * 10 ^ 289) :
    m < leastOutOfRange ↔ n < leastOverflowing := by
  unfold leastOutOfRange
  constructor
  · exact fun hlt => Nat.lt_of_mul_lt_mul_right (Nat.lt_of_le_of_lt hm hlt)
  · exact fun hlt => Nat.lt_of_lt_of_le hm' (Nat.mul_le_mul_right _ hlt)

theorem scale_eq_none_of_long (hlow : greatest / 10 ≤ n) (hhigh : n ≤ greatest) (hlong : 290 ≤ left) :
    scale (.ofNat n) left = none := by
  rcases Nat.lt_or_ge 308 left with hbeyond | hwithin
  · exact scale_eq_none_of_lt (Nat.lt_of_lt_of_le (by decide) hlow) hhigh hbeyond
  · have hcode := productCode_le hlow (Nat.pow_le_pow_right (n := 10) (i := 290) (by decide) hlong)
    rw [← Option.not_isSome_iff_eq_none, scale_isSome_iff_productCode hhigh hwithin]
    exact Nat.not_lt_of_le (Nat.le_trans productCode_endpoints.2.2.2 hcode)

theorem leastOutOfRange_le_of_long (hlow : greatest / 10 ≤ n) (hlong : 290 ≤ left)
    (hm : n * 10 ^ left ≤ m) : leastOutOfRange ≤ m := by
  have hsize : leastOverflowing ≤ n * 10 := by
    rw [greatest] at hlow
    rw [leastOverflowing]
    omega
  have hpower : 10 ^ 290 ≤ 10 ^ left :=
    Nat.pow_le_pow_right (n := 10) (i := 290) (by decide) hlong
  unfold leastOutOfRange
  calc leastOverflowing * 10 ^ 289 ≤ n * 10 * 10 ^ 289 := Nat.mul_le_mul_right _ hsize
    _ = n * 10 ^ 290 := by
        rw [Nat.mul_assoc, ← pow_ten_of_eq_succ (a := 289) (b := 290) rfl]
    _ ≤ n * 10 ^ left := Nat.mul_le_mul_left n hpower
    _ ≤ m := hm

/-- A number is in range according to its size, however many of its digits are left. -/
theorem scale_isSome_iff (hlow : greatest / 10 ≤ n) (hhigh : n ≤ greatest) (hm : n * 10 ^ left ≤ m)
    (hm' : m < (n + 1) * 10 ^ left) :
    (scale (.ofNat n) left).isSome = true ↔ m < leastOutOfRange := by
  rcases Nat.lt_trichotomy left 289 with hshort | rfl | hlong
  · have hshort : left ≤ 288 := Nat.le_of_lt_succ hshort
    have hsome := scale_isSome_of_short hhigh hshort
    exact iff_of_true hsome (lt_leastOutOfRange_of_short hhigh hshort hm')
  · rw [scale_isSome_iff_of_edge hhigh, lt_leastOutOfRange_iff_of_edge hm hm']
  · rw [scale_eq_none_of_long hlow hhigh hlong]
    have hlarge := leastOutOfRange_le_of_long hlow hlong hm
    exact iff_of_false Bool.false_ne_true (Nat.not_lt_of_le hlarge)

end Json.Number

end OData
