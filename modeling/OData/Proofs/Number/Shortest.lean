/-
# `OData.Proofs.Number.Shortest` — the digits that are written for a double

What the digits of `shortest` have in common, whatever the double: they are digits, the first of them
is no zero, their number is at most `10^17`, and the decimal is not beyond the greatest double.  For
the greatest double itself the midpoint above it is beyond, so that one is computed.

The bound on the number of digits comes from `leadingPlace`, which counts the digits in front of a
point far to the right of all that matters; the bound on the size comes from `readsBack`, which keeps
a decimal below the midpoint to the next double.
-/
import OData.Number.Shortest
import OData.Proofs.Number.Range
import OData.Proofs.Text.Integer

namespace OData

namespace Decimal

/-- The digits as a whole number. -/
def significand (d : Decimal) : Nat := Nat.ofDigitChars 10 d.digits 0

/-- The power of ten of the last digit. -/
def place (d : Decimal) : Int := d.exponent - (d.digits.length - 1 : Nat)

/-- What a reader needs of a decimal. -/
structure Readable (d : Decimal) : Prop where
  digits : ∀ c ∈ d.digits, c.isDigit = true
  nonempty : d.digits ≠ []
  head : d.digits.head? ≠ some '0' ∨ d = ⟨['0'], 0⟩
  small : d.significand ≤ 10 ^ 17
  exponent : d.exponent.natAbs < 2 ^ 31
  inRange : ∀ e : Nat, d.place = e → d.significand * 10 ^ e ≤ Double.greatestWhole

/-! ## Zeros at the end -/

theorem exists_zeros (cs : List Char) :
    ∃ z, cs = (cs.reverse.dropWhile (· == '0')).reverse ++ List.replicate z '0' := by
  refine ⟨(cs.reverse.takeWhile (· == '0')).length, ?_⟩
  have hzeros : cs.reverse.takeWhile (· == '0') =
      List.replicate (cs.reverse.takeWhile (· == '0')).length '0' := by
    refine List.eq_replicate_iff.2 ⟨rfl, ?_⟩
    intro c hc
    simpa using List.mem_takeWhile_imp hc
  have hsplit : cs.reverse.takeWhile (· == '0') ++ cs.reverse.dropWhile (· == '0') = cs.reverse :=
    List.takeWhile_append_dropWhile
  have hreverse := congrArg List.reverse hsplit
  rw [List.reverse_reverse, List.reverse_append, hzeros, List.reverse_replicate] at hreverse
  exact hreverse.symm

/-- The zeros at the end of a number become part of its place. -/
structure Trimmed (n : Nat) (place : Int) (d : Decimal) : Prop where
  digits : ∀ c ∈ d.digits, c.isDigit = true
  nonempty : d.digits ≠ []
  head : d.digits.head? ≠ some '0'
  zeros : ∃ z : Nat, d.significand * 10 ^ z = n ∧ d.place = place + z
  length : d.exponent = place + ((Nat.toDigits 10 n).length - 1 : Nat)

theorem trimmed_ofNat {n : Nat} (hn : 0 < n) (place : Int) : Trimmed n place (ofNat n place) := by
  have hdigits : (ofNat n place).digits =
      ((Nat.toDigits 10 n).reverse.dropWhile (· == '0')).reverse := rfl
  obtain ⟨z, hz⟩ := exists_zeros (Nat.toDigits 10 n)
  rw [← hdigits] at hz
  have hhead := Text.head_toDigits hn
  have hne : (ofNat n place).digits ≠ [] := by
    intro hnil
    rw [hz, hnil] at hhead
    cases z with
    | zero => exact Nat.toDigits_ne_nil (by rw [hz, hnil]; rfl)
    | succ z => exact hhead rfl
  refine ⟨?_, hne, ?_, ⟨z, ?_, ?_⟩, rfl⟩
  · intro c hc
    refine Text.isDigit_of_mem_toDigits (n := n) ?_
    rw [hz]
    exact List.mem_append_left _ hc
  · rw [hz, List.head?_append, List.head?_eq_some_head hne, Option.some_or] at hhead
    rwa [List.head?_eq_some_head hne]
  · have hvalue := Nat.ofDigitChars_ten_toDigits (n := n)
    rw [hz, Nat.ofDigitChars_append, Nat.ofDigitChars_replicate_zero] at hvalue
    rw [significand, Nat.mul_comm]
    exact hvalue
  · have hlength := congrArg List.length hz
    rw [List.length_append, List.length_replicate] at hlength
    have hpos := List.length_pos_iff.2 hne
    have hexponent : (ofNat n place).exponent =
        place + ((Nat.toDigits 10 n).length - 1 : Nat) := rfl
    rw [Decimal.place, hexponent]
    omega

end Decimal

namespace Double

/-! ## Candidates -/

theorem candidate?_spec {code : Nat} {place : Int} {d : Decimal} (h : candidate? code place = some d) :
    ∃ n, readsBack code n place = true ∧ d = Decimal.ofNat n place ∧
      n ≤ numerator code * 10 ^ (-place).toNat / (10 ^ place.toNat * 2 ^ 1074) + 1 := by
  unfold candidate? at h
  dsimp only at h
  rw [Option.map_eq_some_iff] at h
  obtain ⟨n, hn, rfl⟩ := h
  have hreads := List.find?_some hn
  have hmem := List.mem_of_find?_eq_some hn
  refine ⟨n, hreads, rfl, ?_⟩
  generalize numerator code * 10 ^ (-place).toNat / (10 ^ place.toNat * 2 ^ 1074) = low at hmem ⊢
  split at hmem <;> simp only [List.mem_cons, List.not_mem_nil, or_false] at hmem <;> omega

theorem readsBack_pos {code n : Nat} {place : Int} (hcode : 0 < code)
    (h : readsBack code n place = true) : 0 < n := by
  rcases Nat.eq_zero_or_pos n with rfl | hn
  · have hbelow : 0 < below code * 10 ^ (-place).toNat := by
      have hpos := numerator_pos hcode
      refine Nat.mul_pos ?_ (Nat.pow_pos (by decide))
      rw [below]
      omega
    rw [readsBack] at h
    simp only [Nat.zero_mul] at h
    split at h <;> simp only [Bool.and_eq_true, decide_eq_true_eq] at h <;> omega
  · exact hn

theorem readsBack_le {code n : Nat} {place : Int} (h : readsBack code n place = true) :
    n * 10 ^ place.toNat * 2 ^ 1075 ≤ above code * 10 ^ (-place).toNat := by
  rw [readsBack] at h
  split at h <;> simp only [Bool.and_eq_true, decide_eq_true_eq] at h
  · exact h.2
  · exact Nat.le_of_lt h.2

/-! ## The first digit -/

/-- The double is below the power of ten after its first digit. -/
theorem numerator_lt_leadingPlace (code : Nat) :
    ∃ digits : Nat, leadingPlace code = digits - 341 ∧
      numerator code * 10 ^ 340 < 10 ^ digits * 2 ^ 1074 := by
  refine ⟨_, rfl, ?_⟩
  have hlt := (Nat.length_toDigits_le_iff (b := 10) (by decide) Nat.length_toDigits_pos).1
    (Nat.le_refl (Nat.toDigits 10 (numerator code * 10 ^ 340 / 2 ^ 1074)).length)
  exact (Nat.div_lt_iff_lt_mul (Nat.two_pow_pos 1074)).1 hlt

/-- With `k` more digits behind the first one, there are `k + 1` of them. -/
theorem quotient_lt (code k : Nat) :
    numerator code * 10 ^ (-(leadingPlace code - k)).toNat /
      (10 ^ (leadingPlace code - k).toNat * 2 ^ 1074) < 10 ^ (k + 1) := by
  obtain ⟨digits, hplace, hlt⟩ := numerator_lt_leadingPlace code
  have hpos : ∀ m, 0 < 10 ^ m := fun m => Nat.pow_pos (by decide)
  rw [Nat.div_lt_iff_lt_mul (Nat.mul_pos (hpos _) (Nat.two_pow_pos 1074))]
  generalize 2 ^ 1074 = unit at hlt ⊢
  -- Both sides are taken times `10^340`, so that the two signs of the place become one case.
  have hexponents : (-(leadingPlace code - k)).toNat + digits =
      340 + (k + 1) + (leadingPlace code - k).toNat := by omega
  have hscaled : numerator code * 10 ^ (-(leadingPlace code - k)).toNat * 10 ^ 340 <
      10 ^ (k + 1) * (10 ^ (leadingPlace code - k).toNat * unit) * 10 ^ 340 := by
    calc numerator code * 10 ^ (-(leadingPlace code - k)).toNat * 10 ^ 340
        = numerator code * 10 ^ 340 * 10 ^ (-(leadingPlace code - k)).toNat := by ac_rfl
      _ < 10 ^ digits * unit * 10 ^ (-(leadingPlace code - k)).toNat :=
          Nat.mul_lt_mul_of_pos_right hlt (hpos _)
      _ = 10 ^ ((-(leadingPlace code - k)).toNat + digits) * unit := by
          rw [Nat.pow_add]
          ac_rfl
      _ = 10 ^ (k + 1) * (10 ^ (leadingPlace code - k).toNat * unit) * 10 ^ 340 := by
          rw [hexponents, Nat.pow_add, Nat.pow_add]
          ac_rfl
  exact Nat.lt_of_mul_lt_mul_right hscaled

theorem mul_div_le {a b c : Nat} (d : Nat) (h : a ≤ b * c) : a * d / c ≤ b * d := by
  refine Nat.div_le_of_le_mul ?_
  calc a * d ≤ b * c * d := Nat.mul_le_mul_right d h
    _ = c * (b * d) := by ac_rfl

theorem mul_pow_ten_lt {n i j k : Nat} (h : n < 10 ^ i) (hk : i + j ≤ k) : n * 10 ^ j < 10 ^ k := by
  have hpos : 0 < 10 ^ j := Nat.pow_pos (by decide)
  calc n * 10 ^ j < 10 ^ i * 10 ^ j := Nat.mul_lt_mul_of_pos_right h hpos
    _ = 10 ^ (i + j) := (Nat.pow_add ..).symm
    _ ≤ 10 ^ k := Nat.pow_le_pow_right (by decide) hk

theorem natAbs_leadingPlace_le {code : Nat} (h : code < codes) :
    (leadingPlace code).natAbs ≤ 1000 := by
  have hnum : numerator code ≤ greatestWhole * 2 ^ 1074 :=
    computed.greatest ▸ numerator_le (by omega)
  have hquotient := mul_div_le (10 ^ 340) hnum
  have hgreatest := mul_pow_ten_lt computed.lt (show 309 + 340 ≤ 700 by decide)
  have hlength := (Nat.length_toDigits_le_iff (b := 10) (by decide) (by decide)).2
    (Nat.lt_of_le_of_lt hquotient hgreatest)
  rw [leadingPlace]
  omega

/-! ## The shortest decimal -/

theorem above_le {code : Nat} (h : code < codes - 1) : above code ≤ greatestWhole * 2 ^ 1075 := by
  have hcode : numerator code ≤ numerator (codes - 1) := numerator_le (by omega)
  have hnext : numerator (code + 1) ≤ numerator (codes - 1) := numerator_le (by omega)
  calc above code ≤ numerator (codes - 1) + numerator (codes - 1) := Nat.add_le_add hcode hnext
    _ = greatestWhole * 2 ^ 1075 := computed.twice

/-- The decimal `n · 10^t / 10^u`, without `z` zeros at its end, is not beyond a bound that holds for it
with them. -/
theorem trimmed_le {s n z e t u unit above bound : Nat} (hz : s * 10 ^ z = n) (he : e + u = z + t)
    (hn : n * 10 ^ t * unit ≤ above * 10 ^ u) (habove : above ≤ bound * unit) (hunit : 0 < unit) :
    s * 10 ^ e ≤ bound := by
  have hpos : 0 < 10 ^ u := Nat.pow_pos (by decide)
  refine Nat.le_of_mul_le_mul_right ?_ (Nat.mul_pos hpos hunit)
  calc s * 10 ^ e * (10 ^ u * unit) = s * 10 ^ (e + u) * unit := by
        rw [Nat.pow_add]
        ac_rfl
    _ = n * 10 ^ t * unit := by rw [he, Nat.pow_add, ← Nat.mul_assoc, hz]
    _ ≤ above * 10 ^ u := hn
    _ ≤ bound * unit * 10 ^ u := Nat.mul_le_mul_right _ habove
    _ = bound * (10 ^ u * unit) := by ac_rfl

theorem natAbs_exponent_lt {first : Int} {k length : Nat} (hfirst : first.natAbs ≤ 1000) (hk : k < 17)
    (hlength : length ≤ 18) : (first - k + (length - 1 : Nat)).natAbs < 2 ^ 31 := by
  omega

theorem exponents_eq {e z : Nat} {place : Int} (h : (e : Int) = place + z) :
    e + (-place).toNat = z + place.toNat := by
  omega

theorem readable_candidate {code k : Nat} {d : Decimal} (hpos : 0 < code) (hcode : code < codes - 1)
    (hk : k < 17) (h : candidate? code (leadingPlace code - k) = some d) : d.Readable := by
  obtain ⟨n, hreads, rfl, hle⟩ := candidate?_spec h
  have hn := readsBack_pos hpos hreads
  have htrim := Decimal.trimmed_ofNat hn (leadingPlace code - k)
  have hpow := Nat.pow_le_pow_right (show 0 < 10 by decide) (show k + 1 ≤ 17 by omega)
  have hsmall : n ≤ 10 ^ 17 := Nat.le_trans hle (Nat.le_trans (quotient_lt code k) hpow)
  clear hle hpow
  obtain ⟨z, hz, hplace⟩ := htrim.zeros
  refine ⟨htrim.digits, htrim.nonempty, .inl htrim.head, ?_, ?_, ?_⟩
  · exact Nat.le_trans (Nat.le_mul_of_pos_right _ (Nat.pow_pos (by decide))) (hz ▸ hsmall)
  · have hlength := (Nat.length_toDigits_le_iff (b := 10) (by decide) (show 0 < 18 by decide)).2
      (Nat.lt_of_le_of_lt hsmall (by decide))
    rw [htrim.length]
    exact natAbs_exponent_lt (natAbs_leadingPlace_le (Nat.lt_of_lt_pred hcode)) hk hlength
  · intro e he
    have hexponents := exponents_eq (he.symm.trans hplace)
    exact trimmed_le hz hexponents (readsBack_le hreads) (above_le hcode) (Nat.two_pow_pos 1075)

theorem shortest_greatest : shortest (codes - 1) = ⟨"17976931348623157".toList, 308⟩ := by
  decide +kernel

theorem readable_zero : Decimal.Readable ⟨['0'], 0⟩ where
  digits := List.all_eq_true.1 (by decide)
  nonempty := by decide
  head := .inr rfl
  small := by decide
  exponent := by decide
  inRange := by
    intro e _
    have hzero : Decimal.significand ⟨['0'], 0⟩ = 0 := rfl
    rw [hzero, Nat.zero_mul]
    exact Nat.zero_le _

theorem readable_greatest : Decimal.Readable ⟨"17976931348623157".toList, 308⟩ where
  digits := List.all_eq_true.1 (by decide)
  nonempty := by decide
  head := .inl (by decide)
  small := by decide
  exponent := by decide
  inRange := by
    intro e he
    have hplace : Decimal.place ⟨"17976931348623157".toList, 308⟩ = 292 := by decide
    obtain rfl : e = 292 := by omega
    decide +kernel

/-- The digits that are written for a double can be read. -/
theorem readable_shortest {code : Nat} (hpos : 0 < code) (hcode : code < codes) :
    (shortest code).Readable := by
  rcases Nat.lt_or_ge code (codes - 1) with hlt | hge
  · rw [shortest]
    cases hfind : (List.range 17).findSome? fun (n : Nat) =>
      candidate? code (leadingPlace code - n) with
    | none => exact readable_zero
    | some d =>
        obtain ⟨k, hk, hcandidate⟩ := List.exists_of_findSome?_eq_some hfind
        exact readable_candidate hpos hlt (List.mem_range.1 hk) hcandidate
  · obtain rfl : code = codes - 1 := by omega
    rw [shortest_greatest]
    exact readable_greatest

end Double

end OData
