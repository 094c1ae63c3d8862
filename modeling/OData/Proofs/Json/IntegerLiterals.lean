/-
# `OData.Proofs.Json.IntegerLiterals` — numbers without a point and an exponent

A numeral that is nothing but digits, perhaps with a minus sign, and not minus zero, is the decimal text
of an integer (`IsInteger.text_eq`), and an integer has no other.  What it is read as is a matter of that
integer alone (`OfInteger`):

| the integer | |
| :-- | :-- |
| from `-2^63` up to below `2^64` | is read exactly |
| beyond that, its size below `leastOutOfRange` | becomes a finite double |
| of a size from `leastOutOfRange` on | is out of range |

Digits are counted up to the greatest significand and not beyond, so that no number of them makes an
integer wrap around: what is kept of a long number is its front, and a place (`wholeDigits_bounds`).
-/
import OData.Proofs.Json.Quoted
import OData.Proofs.Json.Stopping
import OData.Proofs.Number.Overflow

namespace OData.Json

open Number Scan

/-! ## Digits and their number -/

theorem digitsValue_pos {ds : List Nat} (hne : ds ≠ []) (hhead : ds.head? ≠ some 0) :
    0 < digitsValue ds := by
  obtain ⟨d, more, rfl⟩ := List.exists_cons_of_ne_nil hne
  have hd : d ≠ 0 := by simpa using hhead
  have hle : 10 * 0 + d ≤ digitsValue (d :: more) := le_digits_foldl more (10 * 0 + d)
  omega

theorem digitValue_digitChar {d : Nat} (hd : d < 10) : digitValue (Nat.digitChar d) = d := by
  have h0 : '0'.toNat = 48 := rfl
  rw [digitValue, Nat.toNat_digitChar_of_lt_ten hd, h0, Nat.add_sub_cancel_left]

theorem map_digitValue_digitChar {ds : List Nat} (hds : AreDigits ds) :
    (ds.map Nat.digitChar).map digitValue = ds := by
  rw [List.map_map]
  exact (List.map_congr_left fun d hd => digitValue_digitChar (hds d hd)).trans (List.map_id' ds)

/-- Digits without a needless zero are those of their number. -/
theorem map_digitValue_toDigits {ds : List Nat} (hds : AreDigits ds) (hne : ds ≠ [])
    (hhead : ds.head? = some 0 → ds = [0]) :
    (Nat.toDigits 10 (digitsValue ds)).map digitValue = ds := by
  have hchars := map_digitValue_digitChar hds
  by_cases hzero : ds = [0]
  · subst hzero
    rfl
  · have hpositive : Text.ArePositive (ds.map Nat.digitChar) := by
      refine ⟨List.forall_mem_map.2 fun d hd => ?_, by simpa using hne, ?_⟩
      · rw [Nat.isDigit_digitChar]
        exact decide_eq_true (hds d hd)
      · simpa using fun hfirst => hzero (hhead hfirst)
    have hvalue : digitsValue ds = Nat.ofDigitChars 10 (ds.map Nat.digitChar) 0 := by
      rw [← digitsValue_map, hchars]
    rw [hvalue, Text.toDigits_ofDigitChars hpositive, hchars]

/-- Digits behind others: what they add to the number is less than one of what it counts. -/
theorem foldl_digits_bounds : ∀ {ds : List Nat} {n : Nat}, AreDigits ds →
    n * 10 ^ ds.length ≤ ds.foldl (fun n d => 10 * n + d) n ∧
      ds.foldl (fun n d => 10 * n + d) n < (n + 1) * 10 ^ ds.length
  | [], n, _ => by simp
  | d :: ds, n, h => by
      obtain ⟨hd, hds⟩ := AreDigits.tail h
      obtain ⟨hlow, hhigh⟩ := foldl_digits_bounds (n := 10 * n + d) hds
      rw [List.foldl_cons, List.length_cons, Nat.pow_succ', ← Nat.mul_assoc, ← Nat.mul_assoc]
      refine ⟨Nat.le_trans (Nat.mul_le_mul_right _ ?_) hlow,
        Nat.lt_of_lt_of_le hhigh (Nat.mul_le_mul_right _ ?_)⟩
      · omega
      · omega

/-- What is kept of digits: a significand as large as it may be if some digits are left, and between it
and the next one at its place is the number of them all. -/
theorem wholeDigits_bounds : ∀ {ds : List Nat} {n s left : Nat}, AreDigits ds → n ≤ greatest →
    wholeDigits n ds = (s, left) → s ≤ greatest ∧ (left = 0 ∨ greatest / 10 ≤ s) ∧
      s * 10 ^ left ≤ ds.foldl (fun n d => 10 * n + d) n ∧
      ds.foldl (fun n d => 10 * n + d) n < (s + 1) * 10 ^ left
  | [], n, s, left, _, hn, h => by
      cases h
      simpa using hn
  | d :: ds, n, s, left, hds, hn, h => by
      obtain ⟨hd, hmore⟩ := AreDigits.tail hds
      rw [wholeDigits, Nat.mul_comm n 10] at h
      split at h
      · next hfits =>
          rw [List.foldl_cons]
          exact wholeDigits_bounds hmore hfits h
      · next hfull =>
          cases h
          refine ⟨hn, .inr ?_, foldl_digits_bounds hds⟩
          rw [greatest] at hfull ⊢
          omega

/-! ## Integer literals -/

namespace Numeral

variable {l : Numeral}

/-- Digits, and a minus sign if the number is negative. -/
structure IsInteger (l : Numeral) : Prop where
  wellFormed : l.WellFormed
  fraction : l.fraction = []
  power : l.power = none
  nonzero : l.negative = true → l.whole ≠ [0]

/-- The number in front of a point. -/
def toInt (l : Numeral) : Int := if l.negative then -(digitsValue l.whole : Int) else digitsValue l.whole

theorem natAbs_toInt (l : Numeral) : l.toInt.natAbs = digitsValue l.whole := by
  rw [toInt]
  split
  · exact Int.natAbs_neg _
  · exact Int.natAbs_natCast _

theorem IsInteger.pos_of_negative (hl : l.IsInteger) (hneg : l.negative = true) :
    0 < digitsValue l.whole :=
  digitsValue_pos hl.wellFormed.nonempty fun hzero =>
    hl.nonzero hneg (hl.wellFormed.head hzero)

theorem IsInteger.eq_decimalNumeral (hl : l.IsInteger) :
    l = decimalNumeral l.negative (digitsValue l.whole) := by
  obtain ⟨negative, whole, fraction, power⟩ := l
  obtain rfl : fraction = [] := hl.fraction
  obtain rfl : power = none := hl.power
  have hwhole := map_digitValue_toDigits hl.wellFormed.whole hl.wellFormed.nonempty hl.wellFormed.head
  rw [decimalNumeral, hwhole]

/-- An integer literal is the canonical text of its integer. -/
theorem IsInteger.text_eq (hl : l.IsInteger) : l.text = Text.Utf8.encode (Text.decimal l.toInt) := by
  have htext := congrArg text hl.eq_decimalNumeral
  rw [decimalNumeral_text] at htext
  rw [htext, toInt]
  cases hneg : l.negative with
  | true =>
      obtain ⟨m, hm⟩ := Nat.exists_eq_add_one.2 (hl.pos_of_negative hneg)
      have hint : -((m + 1 : Nat) : Int) = .negSucc m := rfl
      rw [if_pos rfl, if_pos rfl, hm, hint, Text.decimal, Text.Utf8.encode_ofList]
      rfl
  | false =>
      rw [if_neg Bool.false_ne_true, if_neg Bool.false_ne_true]
      exact (Text.Utf8.encode_ofList _).symm

/-- Every integer has such a literal. -/
theorem isInteger_decimalNumeral {negative : Bool} {n : Nat} (hn : negative = true → n ≠ 0) :
    (decimalNumeral negative n).IsInteger where
  wellFormed := decimalNumeral_wellFormed negative n
  fraction := rfl
  power := rfl
  nonzero hneg hzero := by
    have hvalue : digitsValue (decimalNumeral negative n).whole = n := digitsValue_toDigits n
    rw [hzero] at hvalue
    exact hn hneg hvalue.symm

theorem toInt_decimalNumeral (negative : Bool) (n : Nat) :
    (decimalNumeral negative n).toInt = if negative then -(n : Int) else n := by
  rw [toInt, decimalNumeral, digitsValue_toDigits]

end Numeral

/-! ## What is read -/

/-- What an integer literal is read as, in terms of its integer. -/
inductive Number.OfInteger (n : Int) : Option Number → Prop
  | exact (hlow : -(2 ^ 63) ≤ n) (hhigh : n < 2 ^ 64) : OfInteger n (some (.integer n))
  | rounded {d : Double} (hd : d.IsFinite) (hwide : n < -(2 ^ 63) ∨ 2 ^ 64 ≤ n)
      (hrange : n.natAbs < leastOutOfRange) : OfInteger n (some (.double d))
  | outOfRange (h : leastOutOfRange ≤ n.natAbs) : OfInteger n none

theorem greatest_lt_leastOutOfRange : greatest < leastOutOfRange := by
  have hten : greatest < Double.leastOverflowing * 10 ^ 1 := by decide
  have hpow := Nat.pow_le_pow_right (n := 10) (show 0 < 10 by decide) (show 1 ≤ 289 by decide)
  unfold leastOutOfRange
  exact Nat.lt_of_lt_of_le hten (Nat.mul_le_mul_left Double.leastOverflowing hpow)

namespace Numeral

variable {l : Numeral}

theorem toInt_eq_or (l : Numeral) :
    l.negative = false ∧ l.toInt = digitsValue l.whole ∨
      l.negative = true ∧ l.toInt = -(digitsValue l.whole : Int) := by
  rw [toInt]
  cases l.negative with
  | false => exact .inl ⟨rfl, rfl⟩
  | true => exact .inr ⟨rfl, rfl⟩

/-- A literal all of whose digits fit. -/
theorem IsInteger.ofInteger_whole (hl : l.IsInteger) (hfits : digitsValue l.whole ≤ greatest) :
    OfInteger l.toInt (some (Number.whole l.negative (digitsValue l.whole))) := by
  have hrange := greatest_lt_leastOutOfRange
  have hfinite := Double.isFinite_ofNat (Nat.le_trans hfits greatest_le_greatestWhole)
  rw [greatest] at hfits hrange
  rw [Number.whole]
  rcases toInt_eq_or l with ⟨hneg, hint⟩ | ⟨hneg, hint⟩
  · rw [hneg, Bool.not_false, if_pos rfl, hint]
    exact .exact (by omega) (by omega)
  · have hpos := hl.pos_of_negative hneg
    rw [hneg, Bool.not_true, if_neg Bool.false_ne_true, hint]
    split
    · next hsmall => exact .exact (by omega) (by omega)
    · next hlarge => exact .rounded hfinite.neg (by omega) (by omega)

/-- A literal of which some digits are left. -/
theorem ofInteger_scaled {s left : Nat} (hhigh : s ≤ greatest) (hlow : greatest / 10 ≤ s)
    (hbelow : s * 10 ^ left ≤ digitsValue l.whole) (habove : digitsValue l.whole < (s + 1) * 10 ^ left)
    (hlarge : greatest < digitsValue l.whole) :
    OfInteger l.toInt ((scaled l.negative s left).map .double) := by
  have hrange := scale_isSome_iff hlow hhigh hbelow habove
  have habs := natAbs_toInt l
  cases hscale : scale (.ofNat s) left with
  | none =>
      rw [hscale] at hrange
      rw [scaled, hscale]
      refine .outOfRange ?_
      rw [habs]
      exact Nat.not_lt.1 fun hlt => Bool.false_ne_true (hrange.2 hlt)
  | some d =>
      have hscaled : scaled l.negative s left = some (if l.negative then d.neg else d) := by
        rw [scaled, hscale, Option.map_some]
      rw [hscaled]
      refine .rounded (isFinite_of_scaled hhigh hscaled) ?_ ?_
      · rw [greatest] at hlarge
        rcases toInt_eq_or l with ⟨-, hint⟩ | ⟨-, hint⟩ <;> omega
      · rw [habs, ← hrange, hscale, Option.isSome_some]

theorem IsInteger.number?_eq (hl : l.IsInteger) {s left : Nat}
    (hkept : wholeDigits 0 l.whole = (s, left)) :
    l.number? = if left = 0 then some (Number.whole l.negative s)
      else (scaled l.negative s left).map .double := by
  simp only [number?, hkept, hl.fraction, hl.power, Option.isNone_none, true_and, behind?,
    fractionDigits, Int.ofNat_zero, Int.sub_zero]

/-- What an integer literal is read as is settled by its integer. -/
theorem IsInteger.ofInteger (hl : l.IsInteger) : OfInteger l.toInt l.number? := by
  obtain ⟨⟨s, left⟩, hkept⟩ : ∃ kept, wholeDigits 0 l.whole = kept := ⟨_, rfl⟩
  obtain ⟨hhigh, hleft, hbelow, habove⟩ :=
    wholeDigits_bounds hl.wellFormed.whole (Nat.zero_le greatest) hkept
  rw [hl.number?_eq hkept]
  split
  · next hall =>
      subst hall
      obtain rfl : s = digitsValue l.whole := by
        rw [Nat.pow_zero, Nat.mul_one] at hbelow habove
        exact Nat.le_antisymm hbelow (Nat.le_of_lt_succ habove)
      exact hl.ofInteger_whole hhigh
  · next hsome =>
      refine ofInteger_scaled hhigh (hleft.resolve_left hsome) hbelow habove ?_
      by_contra hfits
      rw [wholeDigits_eq (Nat.not_lt.1 hfits)] at hkept
      exact hsome (Prod.mk.inj hkept).2.symm

/-- An integer literal that is out of range stops a reader of its value. -/
theorem IsInteger.stops_start {ρ : Type} {gap i : List UInt8} (hl : l.IsInteger)
    (hnone : l.number? = none) (hgap : Blank gap) (hi : Halts extendsNumber i) :
    Stops (ρ := ρ) .numberOutOfRange start (gap ++ (l.text ++ i)) := by
  refine .of_comesTo (comesTo_start_number hgap hl.wellFormed hi) (.bind ?_ _)
  rw [fractionText, if_pos hl.fraction, powerText, hl.power, Option.map_none, Option.getD_none,
    List.nil_append, List.nil_append, numberRest]
  cases hkept : wholeDigits 0 l.whole with
  | mk s left =>
      rw [hl.number?_eq hkept] at hnone
      refine .after (passes_peek i) ?_
      split
      · next heq => exact absurd heq hi.no_point
      · next heq => exact absurd heq hi.no_power.1
      · next heq => exact absurd heq hi.no_power.2
      · split at hnone
        · cases hnone
        · next hsome =>
            rw [if_neg hsome, scaledHere, Option.map_eq_none_iff.1 hnone]
            exact stops_flawHere .numberOutOfRange i

end Numeral

end OData.Json
