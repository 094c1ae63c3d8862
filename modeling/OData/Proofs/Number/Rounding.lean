/-
# `OData.Proofs.Number.Rounding` — rounding keeps the order

A greater quotient never has a smaller code.  That is all that a bound on a result needs: the code of
the result is bounded by the code of the bound, and the latter is a number to be computed.

The order of two quotients is said with products, `a · d ≤ c · b` for `a / b ≤ c / d`.  Below one
place of the last bit it is the order of `roundHalfEven`; across places it follows from where the
rounded significands lie.
-/
import Mathlib
import OData.Number.Rounding

namespace OData.Double

/-! ## To the nearest natural number -/

/-- `r` is as near to `num / den` as any natural number, and even if another one is as near. -/
structure NearestEven (num den r : Nat) : Prop where
  above : 2 * r * den ≤ 2 * num + den
  below : 2 * num ≤ 2 * r * den + den
  evenAbove : 2 * r * den = 2 * num + den → r % 2 = 0
  evenBelow : 2 * num = 2 * r * den + den → r % 2 = 0

theorem nearestEven_roundHalfEven (num : Nat) {den : Nat} (hden : 0 < den) :
    NearestEven num den (roundHalfEven num den) := by
  have hsplit : den * (num / den) + num % den = num := Nat.div_add_mod num den
  have hlt : num % den < den := Nat.mod_lt num hden
  have hq : ∀ r, 2 * r * den = 2 * (den * r) := fun r => by ring
  have hsucc : 2 * (num / den + 1) * den = 2 * (den * (num / den)) + 2 * den := by ring
  unfold roundHalfEven
  dsimp only
  split
  · next h => constructor <;> rw [hq] <;> omega
  · split
    · next h => constructor <;> rw [hsucc] <;> omega
    · next h h' =>
        rcases Nat.mod_two_eq_zero_or_one (num / den) with heven | hodd
        · rw [heven, Nat.add_zero]
          constructor <;> rw [hq] <;> omega
        · rw [hodd]
          constructor <;> rw [hsucc] <;> omega

theorem NearestEven.le {a b c d r s : Nat} (h : NearestEven a b r) (h' : NearestEven c d s)
    (hb : 0 < b) (hd : 0 < d) (hle : a * d ≤ c * b) : r ≤ s := by
  by_contra hlt
  have hsr : s + 1 ≤ r := by omega
  have hprod : 0 < b * d := Nat.mul_pos hb hd
  have habove : 2 * r * (b * d) ≤ 2 * (a * d) + b * d := by
    calc 2 * r * (b * d) = 2 * r * b * d := by ring
      _ ≤ (2 * a + b) * d := Nat.mul_le_mul_right d h.above
      _ = 2 * (a * d) + b * d := by ring
  have hbelow : 2 * (c * b) ≤ 2 * s * (b * d) + b * d := by
    calc 2 * (c * b) = 2 * c * b := by ring
      _ ≤ (2 * s * d + d) * b := Nat.mul_le_mul_right b h'.below
      _ = 2 * s * (b * d) + b * d := by ring
  have hstep : 2 * (s + 1) * (b * d) ≤ 2 * r * (b * d) :=
    Nat.mul_le_mul_right _ (Nat.mul_le_mul_left 2 hsr)
  have hstep' : 2 * (s + 1) * (b * d) = 2 * s * (b * d) + 2 * (b * d) := by ring
  -- Every inequality on the way is an equation, so that both numbers are even.
  have hr : r = s + 1 := by
    have hmul : 2 * r * (b * d) ≤ 2 * (s + 1) * (b * d) := by omega
    have := Nat.le_of_mul_le_mul_right hmul hprod
    omega
  subst hr
  have heven : (s + 1) % 2 = 0 := by
    refine h.evenAbove (Nat.eq_of_mul_eq_mul_right hd ?_)
    calc 2 * (s + 1) * b * d = 2 * (s + 1) * (b * d) := by ring
      _ = 2 * (a * d) + b * d := by omega
      _ = (2 * a + b) * d := by ring
  have heven' : s % 2 = 0 := by
    refine h'.evenBelow (Nat.eq_of_mul_eq_mul_right hb ?_)
    calc 2 * c * b = 2 * (c * b) := by ring
      _ = 2 * s * (b * d) + b * d := by omega
      _ = (2 * s * d + d) * b := by ring
  omega

theorem roundHalfEven_le {a b c d : Nat} (hb : 0 < b) (hd : 0 < d) (hle : a * d ≤ c * b) :
    roundHalfEven a b ≤ roundHalfEven c d :=
  (nearestEven_roundHalfEven a hb).le (nearestEven_roundHalfEven c hd) hb hd hle

theorem roundHalfEven_one (n : Nat) : roundHalfEven n 1 = n := by
  simp [roundHalfEven, Nat.mod_one]

/-! ## The place of the last bit -/

/-- Below the next place the significand has 53 bits at most, and it has as many unless the place is
the least one. -/
structure PlaceSpec (num den place : Nat) : Prop where
  lt : num < den * 2 ^ (place + 53)
  le : place = 0 ∨ den * 2 ^ (place + 52) ≤ num

theorem lastPlace_spec (num : Nat) {den : Nat} (hden : 0 < den) :
    PlaceSpec num den (lastPlace num den) := by
  have hden0 : den ≠ 0 := by omega
  have hlow : 2 ^ den.log2 ≤ den := Nat.log2_self_le hden0
  have hhigh : den < 2 ^ (den.log2 + 1) := Nat.lt_log2_self
  have hnum : num < 2 ^ (num.log2 + 1) := Nat.lt_log2_self
  have hscale : ∀ k, 2 ^ (den.log2 + k) ≤ den * 2 ^ k := by
    intro k
    rw [Nat.pow_add]
    exact Nat.mul_le_mul_right _ hlow
  -- The guess is made from lengths in bits alone, so that it is right or one too high.
  unfold lastPlace
  dsimp only
  split
  · next hsmall =>
      rcases Nat.eq_zero_or_pos (num.log2 - (den.log2 + 52)) with hzero | hpos
      · rw [hzero] at hsmall ⊢
        refine ⟨Nat.lt_of_lt_of_le hsmall (Nat.mul_le_mul_left den ?_), .inl rfl⟩
        exact Nat.pow_le_pow_right (by decide) (by decide)
      · have hguess : num.log2 - (den.log2 + 52) - 1 + 53 = num.log2 - (den.log2 + 52) + 52 := by
          omega
        refine ⟨by rwa [hguess], .inr ?_⟩
        have hne : num ≠ 0 := by
          rintro rfl
          simp at hpos
        calc den * 2 ^ (num.log2 - (den.log2 + 52) - 1 + 52)
            ≤ 2 ^ (den.log2 + 1) * 2 ^ (num.log2 - (den.log2 + 52) - 1 + 52) :=
              Nat.mul_le_mul_right _ (Nat.le_of_lt hhigh)
          _ = 2 ^ num.log2 := by
              rw [← Nat.pow_add]
              congr 1
              omega
          _ ≤ num := Nat.log2_self_le hne
  · next hlarge =>
      refine ⟨?_, ?_⟩
      · refine Nat.lt_of_lt_of_le hnum (Nat.le_trans ?_ (hscale _))
        exact Nat.pow_le_pow_right (by decide) (by omega)
      · exact .inr (Nat.le_of_not_lt hlarge)

/-! ## Codes -/

theorem roundHalfEven_le_of_place {num den place : Nat} (hden : 0 < den)
    (h : PlaceSpec num den place) : roundHalfEven num (den * 2 ^ place) ≤ 2 ^ 53 := by
  have hpos : 0 < den * 2 ^ place := Nat.mul_pos hden (Nat.two_pow_pos place)
  have hle : num * 1 ≤ 2 ^ 53 * (den * 2 ^ place) := by
    have hlt := h.lt
    rw [Nat.pow_add] at hlt
    calc num * 1 = num := Nat.mul_one num
      _ ≤ den * (2 ^ place * 2 ^ 53) := Nat.le_of_lt hlt
      _ = 2 ^ 53 * (den * 2 ^ place) := by ring
  exact Nat.le_trans (roundHalfEven_le hpos Nat.one_pos hle) (roundHalfEven_one _).le

theorem le_roundHalfEven_of_place {num den place : Nat} (hden : 0 < den)
    (h : PlaceSpec num den place) (hplace : place ≠ 0) :
    2 ^ 52 ≤ roundHalfEven num (den * 2 ^ place) := by
  have hpos : 0 < den * 2 ^ place := Nat.mul_pos hden (Nat.two_pow_pos place)
  have hle : 2 ^ 52 * (den * 2 ^ place) ≤ num * 1 := by
    have hge := h.le.resolve_left hplace
    rw [Nat.pow_add] at hge
    calc 2 ^ 52 * (den * 2 ^ place) = den * (2 ^ place * 2 ^ 52) := by ring
      _ ≤ num := hge
      _ = num * 1 := (Nat.mul_one num).symm
  exact Nat.le_trans (roundHalfEven_one _).ge
    (roundHalfEven_le Nat.one_pos hpos hle)

/-- The code of a quotient, in units of the least place. -/
theorem placedCode_le {m b n d : Nat} (hb : 0 < b) (hd : 0 < d) (hle : m * d ≤ n * b) :
    lastPlace m b * 2 ^ 52 + roundHalfEven m (b * 2 ^ lastPlace m b) ≤
      lastPlace n d * 2 ^ 52 + roundHalfEven n (d * 2 ^ lastPlace n d) := by
  have hm := lastPlace_spec m hb
  have hn := lastPlace_spec n hd
  generalize lastPlace m b = p at hm
  generalize lastPlace n d = q at hn
  -- Rounding decides at one place only.  The codes of a lower place end where those of a higher begin,
  -- and a quotient at a higher place is the greater one.
  rcases Nat.lt_trichotomy p q with hpq | rfl | hpq
  · have hhigh := roundHalfEven_le_of_place hb hm
    have hlow := le_roundHalfEven_of_place hd hn (by omega)
    have hplaces : (p + 1) * 2 ^ 52 ≤ q * 2 ^ 52 := Nat.mul_le_mul_right _ hpq
    omega
  · refine Nat.add_le_add_left (roundHalfEven_le ?_ ?_ ?_) _
    · exact Nat.mul_pos hb (Nat.two_pow_pos p)
    · exact Nat.mul_pos hd (Nat.two_pow_pos p)
    · calc m * (d * 2 ^ p) = m * d * 2 ^ p := by ring
        _ ≤ n * b * 2 ^ p := Nat.mul_le_mul_right _ hle
        _ = n * (b * 2 ^ p) := by ring
  · exfalso
    have hlow := hm.le.resolve_left (by omega)
    have hpow : 2 ^ (q + 53) ≤ 2 ^ (p + 52) := Nat.pow_le_pow_right (by decide) (by omega)
    have hlt : n * b < m * d := by
      calc n * b < d * 2 ^ (q + 53) * b := Nat.mul_lt_mul_of_pos_right hn.lt hb
        _ ≤ d * 2 ^ (p + 52) * b := Nat.mul_le_mul_right b (Nat.mul_le_mul_left d hpow)
        _ = b * 2 ^ (p + 52) * d := by ring
        _ ≤ m * d := Nat.mul_le_mul_right d hlow
    omega

/-- A greater quotient never has a smaller code. -/
theorem nearestCode_le {a b c d : Nat} (hb : 0 < b) (hd : 0 < d) (hle : a * d ≤ c * b) :
    nearestCode a b ≤ nearestCode c d := by
  have hscaled : ∀ k, a * k * d ≤ c * k * b := by
    intro k
    calc a * k * d = a * d * k := by ring
      _ ≤ c * b * k := Nat.mul_le_mul_right k hle
      _ = c * k * b := by ring
  exact placedCode_le hb hd (hscaled _)

theorem nearestCode_le_left {a b c : Nat} (hb : 0 < b) (hle : a ≤ c) :
    nearestCode a b ≤ nearestCode c b :=
  nearestCode_le hb hb (Nat.mul_le_mul_right b hle)

/-! ## Magnitudes -/

theorem numerator_of_lt {code : Nat} (h : code < 2 ^ 52) : numerator code = code := by
  rw [numerator, significand, if_pos h, shift, Nat.div_eq_of_lt h, Nat.zero_sub, Nat.pow_zero,
    Nat.mul_one]

theorem numerator_of_le {code : Nat} (h : 2 ^ 52 ≤ code) :
    numerator code = (2 ^ 52 + code % 2 ^ 52) * 2 ^ (code / 2 ^ 52 - 1) := by
  rw [numerator, significand, if_neg (Nat.not_lt.2 h), shift]

theorem numerator_lt_succ (code : Nat) : numerator code < numerator (code + 1) := by
  by_cases hsmall : code + 1 < 2 ^ 52
  · rw [numerator_of_lt hsmall, numerator_of_lt (Nat.lt_of_succ_lt hsmall)]
    exact Nat.lt_succ_self code
  have hnext : 2 ^ 52 ≤ code + 1 := Nat.le_of_not_lt hsmall
  rcases Nat.lt_or_ge code (2 ^ 52) with hlast | hnormal
  · obtain rfl : code = 2 ^ 52 - 1 := by omega
    rw [numerator_of_lt hlast, numerator_of_le hnext]
    decide
  rw [numerator_of_le hnormal, numerator_of_le hnext]
  have hlt : code % 2 ^ 52 < 2 ^ 52 := Nat.mod_lt code (by decide)
  -- Either the significand grows, or it starts again at the next place.
  by_cases hgrows : code % 2 ^ 52 + 1 < 2 ^ 52
  · have hdiv : (code + 1) / 2 ^ 52 = code / 2 ^ 52 := by omega
    have hmod : (code + 1) % 2 ^ 52 = code % 2 ^ 52 + 1 := by omega
    rw [hdiv, hmod]
    exact Nat.mul_lt_mul_of_pos_right (by omega) (Nat.two_pow_pos _)
  · have hdiv : (code + 1) / 2 ^ 52 = code / 2 ^ 52 + 1 := by omega
    have hmod : (code + 1) % 2 ^ 52 = 0 := by omega
    have hplace : 0 < code / 2 ^ 52 := Nat.div_pos hnormal (by decide)
    have hpow : 2 ^ (code / 2 ^ 52) = 2 * 2 ^ (code / 2 ^ 52 - 1) := by
      rw [← Nat.pow_succ', Nat.succ_eq_add_one, Nat.sub_add_cancel hplace]
    rw [hdiv, hmod, Nat.add_sub_cancel, Nat.add_zero, hpow]
    calc (2 ^ 52 + code % 2 ^ 52) * 2 ^ (code / 2 ^ 52 - 1)
        < (2 ^ 52 * 2) * 2 ^ (code / 2 ^ 52 - 1) :=
          Nat.mul_lt_mul_of_pos_right (by omega) (Nat.two_pow_pos _)
      _ = 2 ^ 52 * (2 * 2 ^ (code / 2 ^ 52 - 1)) := Nat.mul_assoc ..

theorem numerator_strictMono : StrictMono numerator := strictMono_nat_of_lt_succ numerator_lt_succ

theorem numerator_le {a b : Nat} (h : a ≤ b) : numerator a ≤ numerator b :=
  numerator_strictMono.monotone h

theorem numerator_pos {code : Nat} (h : 0 < code) : 0 < numerator code :=
  Nat.lt_of_le_of_lt (Nat.zero_le _) (numerator_strictMono h)

end OData.Double
