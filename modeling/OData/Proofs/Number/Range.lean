/-
# `OData.Proofs.Number.Range` — decimals that do not overflow

Reading `n · 10^e` rounds three times: the significand, the power of ten and their product.  So that
`n · 10^e` is at most the greatest double does not by itself say that the product is a double.  It is
one if `n` has no more than seventeen digits, as all numbers have that are written here: for
exponents up to 291 the product with the greatest such `n` is far below the greatest double, and for
each of the seventeen exponents beyond that the greatest product is computed.

The other way round, whatever a number is read as is finite (`isFinite_of_scaled`): a product that
overflows is noticed, and a quotient by a power of ten is no greater than what is divided.
-/
import OData.Json.Scan.Number
import OData.Proofs.Number.Rounding

namespace OData

namespace Double

/-- The greatest double, which is a whole number. -/
@[irreducible] def greatestWhole : Nat := (2 ^ 53 - 1) * 2 ^ 971

/-- The numbers that are computed: what the greatest double is and where it lies, and one as a double. -/
structure Computed : Prop where
  greatest : numerator (codes - 1) = greatestWhole * 2 ^ 1074
  twice : numerator (codes - 1) + numerator (codes - 1) = greatestWhole * 2 ^ 1075
  ge : 10 ^ 308 ≤ greatestWhole
  lt : greatestWhole < 10 ^ 309
  fits : nearestCode greatestWhole 1 < codes
  one : numerator (nearestCode 1 1) = 2 ^ 1074

theorem computed : Computed := by
  constructor <;> decide +kernel

theorem pow_le_greatestWhole {n : Nat} (hn : n ≤ 308) : 10 ^ n ≤ greatestWhole :=
  Nat.le_trans (Nat.pow_le_pow_right (by decide) hn) computed.ge

theorem nearestCode_lt_codes {n : Nat} (h : n ≤ greatestWhole) : nearestCode n 1 < codes := by
  have hle : nearestCode n 1 ≤ nearestCode greatestWhole 1 :=
    nearestCode_le Nat.one_pos Nat.one_pos (by omega)
  have hgreatest : nearestCode greatestWhole 1 < codes := computed.fits
  exact Nat.lt_of_le_of_lt hle hgreatest

/-- The code of the product of two whole numbers, each of them rounded. -/
def productCode (m n : Nat) : Nat :=
  nearestCode (numerator (nearestCode m 1) * numerator (nearestCode n 1)) (2 ^ 2148)

theorem productCode_le {m m' n n' : Nat} (hm : m ≤ m') (hn : n ≤ n') :
    productCode m n ≤ productCode m' n' := by
  have hleft : numerator (nearestCode m 1) ≤ numerator (nearestCode m' 1) :=
    numerator_le (nearestCode_le Nat.one_pos Nat.one_pos (by omega))
  have hright : numerator (nearestCode n 1) ≤ numerator (nearestCode n' 1) :=
    numerator_le (nearestCode_le Nat.one_pos Nat.one_pos (by omega))
  exact nearestCode_le_left (Nat.two_pow_pos 2148) (Nat.mul_le_mul hleft hright)

theorem ofNat_eq {n : Nat} (h : nearestCode n 1 < codes) :
    ofNat n = .finite false ⟨nearestCode n 1, h⟩ := by
  rw [ofNat, nearest, ofCode, dif_pos h]

theorem mul_finite (s t : Bool) (a b : Fin codes) :
    (finite s a).mul (finite t b) = nearest (s != t) (numerator a * numerator b) (2 ^ 2148) := rfl

theorem isInfinite_mul_ofNat {m n : Nat} (hm : nearestCode m 1 < codes)
    (hn : nearestCode n 1 < codes) (h : productCode m n < codes) :
    ((ofNat m).mul (ofNat n)).isInfinite = false := by
  rw [productCode] at h
  rw [ofNat_eq hm, ofNat_eq hn, mul_finite, nearest, ofCode, dif_pos h]
  rfl

/-- The products with the greatest powers of ten, and one with all those below. -/
theorem productCode_lt_codes_table : productCode (10 ^ 17) (10 ^ 291) < codes ∧
    ∀ k < 17, productCode (greatestWhole / 10 ^ (292 + k)) (10 ^ (292 + k)) < codes := by
  decide +kernel

theorem productCode_lt_codes {n e : Nat} (hn : n ≤ 10 ^ 17) (he : e ≤ 308)
    (h : n * 10 ^ e ≤ greatestWhole) : productCode n (10 ^ e) < codes := by
  rcases Nat.lt_or_ge 291 e with hlarge | hsmall
  · obtain ⟨k, rfl⟩ : ∃ k, e = 292 + k := ⟨e - 292, by omega⟩
    have hle : n ≤ greatestWhole / 10 ^ (292 + k) :=
      (Nat.le_div_iff_mul_le (Nat.pow_pos (by decide))).2 h
    exact Nat.lt_of_le_of_lt (productCode_le hle (Nat.le_refl _))
      (productCode_lt_codes_table.2 k (by omega))
  · have hpow := Nat.pow_le_pow_right (show 0 < 10 by decide) hsmall
    exact Nat.lt_of_le_of_lt (productCode_le hn hpow) productCode_lt_codes_table.1

/-! ## Finite doubles -/

/-- A double that stands for a number. -/
def IsFinite (d : Double) : Prop := ∃ negative code, d = .finite negative code

theorem isFinite_ofNat {n : Nat} (h : n ≤ greatestWhole) : (ofNat n).IsFinite :=
  ⟨false, _, ofNat_eq (nearestCode_lt_codes h)⟩

theorem IsFinite.neg {d : Double} (h : d.IsFinite) : d.neg.IsFinite := by
  obtain ⟨negative, code, rfl⟩ := h
  exact ⟨!negative, code, rfl⟩

theorem isFinite_mul {d e : Double} (hd : d.IsFinite) (he : e.IsFinite)
    (h : (d.mul e).isInfinite = false) : (d.mul e).IsFinite := by
  obtain ⟨s, a, rfl⟩ := hd
  obtain ⟨t, b, rfl⟩ := he
  rw [mul_finite, nearest, ofCode] at h ⊢
  split
  · exact ⟨_, _, rfl⟩
  · next hlarge =>
      rw [dif_neg hlarge] at h
      exact absurd h (Bool.noConfusion)

/-- A quotient by a whole number is no greater than what is divided. -/
theorem nearestCode_div_lt_codes {a b : Nat} (ha : a < codes) (hb : 2 ^ 1074 ≤ numerator b) :
    nearestCode (numerator a) (numerator b) < codes := by
  have hnum : numerator a ≤ greatestWhole * 2 ^ 1074 := by
    rw [← computed.greatest]
    exact numerator_le (Nat.le_sub_one_of_lt ha)
  have hpos : 0 < numerator b := Nat.lt_of_lt_of_le (Nat.two_pow_pos 1074) hb
  have hle : nearestCode (numerator a) (numerator b) ≤ nearestCode greatestWhole 1 := by
    refine nearestCode_le hpos Nat.one_pos ?_
    rw [Nat.mul_one]
    exact Nat.le_trans hnum (Nat.mul_le_mul_left greatestWhole hb)
  exact Nat.lt_of_le_of_lt hle (nearestCode_lt_codes (Nat.le_refl greatestWhole))

theorem le_numerator_nearestCode {n : Nat} (hn : 0 < n) :
    2 ^ 1074 ≤ numerator (nearestCode n 1) := by
  have hone : numerator (nearestCode 1 1) = 2 ^ 1074 := computed.one
  rw [← hone]
  exact numerator_le (nearestCode_le_left Nat.one_pos hn)

end Double

namespace Json.Number

open Double

/-- Making a number smaller never leads out of the range. -/
theorem scale_isSome_of_neg {d : Double} {e : Int} (he : e < 0) : (scale d e).isSome = true := by
  fun_induction scale d e with
  | case1 | case2 | case5 => omega
  | case3 | case4 => rfl
  | case6 d e hstep hzero hpos ih =>
      exact ih (by omega)

/-- A significand of seventeen digits at most, at a place where it is no greater than the greatest
double. -/
theorem scale_isSome_of_le {n e : Nat} (hpos : 0 < n) (hn : n ≤ 10 ^ 17)
    (h : n * 10 ^ e ≤ greatestWhole) : (scale (.ofNat n) e).isSome = true := by
  have hpow : 10 ^ e ≤ greatestWhole := Nat.le_trans (Nat.le_mul_of_pos_left _ hpos) h
  have he : e ≤ 308 := by
    by_contra hlarge
    have hle := Nat.pow_le_pow_right (show 0 < 10 by decide) (show 309 ≤ e by omega)
    exact absurd (Nat.lt_of_le_of_lt hpow computed.lt) (Nat.not_lt_of_le hle)
  have hle : n ≤ greatestWhole := Nat.le_trans (Nat.le_mul_of_pos_right n (Nat.pow_pos (by decide))) h
  have hfinite : ((Double.ofNat n).mul (powerOfTen e)).isInfinite = false :=
    isInfinite_mul_ofNat (nearestCode_lt_codes hle) (nearestCode_lt_codes hpow)
      (productCode_lt_codes hn he h)
  have hstep : (e : Int).natAbs ≤ 308 := by simpa using he
  rw [scale, if_pos hstep, if_pos (Int.natCast_nonneg e)]
  simp [hfinite]

theorem scaled_isSome {negative : Bool} {n : Nat} {e : Int} (h : (scale (.ofNat n) e).isSome = true) :
    (scaled negative n e).isSome = true := by
  simpa [scaled] using h

/-! ## What is read is finite -/

theorem isFinite_powerOfTen {n : Nat} (hn : n ≤ 308) : (powerOfTen n).IsFinite :=
  isFinite_ofNat (pow_le_greatestWhole hn)

theorem isFinite_div_powerOfTen {d : Double} {n : Nat} (hd : d.IsFinite) (hn : n ≤ 308) :
    (d.div (powerOfTen n)).IsFinite := by
  obtain ⟨negative, code, rfl⟩ := hd
  have hcode := nearestCode_lt_codes (pow_le_greatestWhole hn)
  have hnum := le_numerator_nearestCode (Nat.pow_pos (n := n) (show 0 < 10 by decide))
  have hne : nearestCode (10 ^ n) 1 ≠ 0 := by
    intro hzero
    rw [hzero] at hnum
    exact absurd hnum (Nat.not_le_of_lt (Nat.two_pow_pos 1074))
  rw [powerOfTen, ofNat_eq hcode, div, if_neg hne, nearest, ofCode,
    dif_pos (nearestCode_div_lt_codes code.isLt hnum)]
  exact ⟨_, _, rfl⟩

/-- A product or quotient with a power of ten is a number, if there is one. -/
theorem isFinite_of_scale {d d' : Double} {e : Int} (hd : d.IsFinite) (h : scale d e = some d') :
    d'.IsFinite := by
  fun_induction scale d e with
  | case1 | case5 => cases h
  | case2 d e hstep hpos product hfinite =>
      rw [← Option.some.inj h]
      exact isFinite_mul hd (isFinite_powerOfTen hstep) (Bool.eq_false_iff.2 hfinite)
  | case3 d e hstep hneg =>
      cases h
      exact isFinite_div_powerOfTen hd hstep
  | case4 =>
      cases h
      exact hd
  | case6 d e hstep hzero hneg ih =>
      exact ih (isFinite_div_powerOfTen hd (Nat.le_refl 308)) h

/-- A significand is far below the greatest double. -/
theorem greatest_le_greatestWhole : greatest ≤ greatestWhole := by
  have hdigits : greatest ≤ 10 ^ 20 := by decide
  exact Nat.le_trans hdigits (pow_le_greatestWhole (by decide))

theorem isFinite_of_scaled {negative : Bool} {n : Nat} {e : Int} {d : Double} (hn : n ≤ greatest)
    (h : scaled negative n e = some d) : d.IsFinite := by
  obtain ⟨d', hd', rfl⟩ := Option.map_eq_some_iff.1 h
  have hfinite := isFinite_of_scale (isFinite_ofNat (Nat.le_trans hn greatest_le_greatestWhole)) hd'
  split
  · exact hfinite.neg
  · exact hfinite

end Json.Number

end OData
