/-
# `OData.Proofs.Json.Numbers` — reading and passing numbers

A number is read as what its numeral stands for, or found to be out of range, provided that the byte
behind it cannot extend it.  The proof follows the reader from part to part: digits are taken up to
the first byte that is none, and what comes next tells a fraction from an exponent from the end.

An exponent of `2^31` or more is noticed digit by digit.  Values only grow on the way, so whether
some digit leads past the limit depends on the value of all of them alone.
-/
import OData.Proofs.Json.Spelling

namespace OData.Json.Scan

open Number

variable {ρ : Type} {i : List UInt8}

/-! ## Digits -/

theorem digit?_digitByte : ∀ {d : Nat}, d < 10 → Byte.digit? (digitByte d) = some d := by
  decide

theorem isDigit_digitByte {d : Nat} (h : d < 10) : Byte.isDigit (digitByte d) = true := by
  simp [Byte.isDigit, digit?_digitByte h]

theorem AreDigits.tail {d : Nat} {ds : List Nat} (h : AreDigits (d :: ds)) :
    d < 10 ∧ AreDigits ds :=
  List.forall_mem_cons.1 h

/-- The first of at least one digit, and the others. -/
theorem AreDigits.exists_cons {ds : List Nat} (h : AreDigits ds) (hne : ds ≠ []) :
    ∃ d more, d < 10 ∧ AreDigits more ∧ ds = d :: more := by
  obtain ⟨d, more, rfl⟩ := List.exists_cons_of_ne_nil hne
  obtain ⟨hd, hmore⟩ := AreDigits.tail h
  exact ⟨d, more, hd, hmore, rfl⟩

theorem all_isDigit {ds : List Nat} (h : AreDigits ds) :
    (digitsText ds).all Byte.isDigit = true := by
  simp only [digitsText, List.all_map, List.all_eq_true]
  intro d hd
  exact isDigit_digitByte (h d hd)

theorem filterMap_digitsText :
    ∀ {ds : List Nat}, AreDigits ds → (digitsText ds).filterMap Byte.digit? = ds
  | [], _ => rfl
  | d :: ds, h => by
      have ih := filterMap_digitsText (AreDigits.tail h).2
      rw [digitsText] at ih
      rw [digitsText, List.map_cons, List.filterMap_cons_some (digit?_digitByte (AreDigits.tail h).1), ih]

theorem passes_digits {ds : List Nat} (h : AreDigits ds) (hi : Halts Byte.isDigit i) :
    Passes (ρ := ρ) digits (digitsText ds ++ i) ds i := by
  refine (passes_takeWhile (all_isDigit h) hi).bind ?_
  rw [filterMap_digitsText h]
  exact Passes.pure ds i

theorem digit?_head_of_halts (h : Halts Byte.isDigit i) : i.head? >>= Byte.digit? = none := by
  cases i with
  | nil => rfl
  | cons b i => simpa [Byte.isDigit] using h.head

/-! ## Exponents -/

theorem le_digits_foldl : ∀ (ds : List Nat) (n : Nat), n ≤ ds.foldl (fun n d => 10 * n + d) n
  | [], n => Nat.le_refl n
  | d :: ds, n => Nat.le_trans (by omega) (le_digits_foldl ds (10 * n + d))

theorem exponentDigits_cons (fuel n : Nat) (b : UInt8) (rest : List UInt8) (place : Position) :
    exponentDigits (ρ := ρ) (fuel + 1) n ⟨b :: rest, place⟩ =
      match Byte.digit? b with
      | none => .ok (some n) ⟨b :: rest, place⟩
      | some d =>
        if 10 * n + d < 2 ^ 31 then exponentDigits fuel (10 * n + d) ⟨rest, place.after b⟩
        else .ok none ⟨rest, place.after b⟩ := by
  have hpeek : peek (ρ := ρ) ⟨b :: rest, place⟩ = .ok (some b) ⟨b :: rest, place⟩ := rfl
  have hadvance : advance (ρ := ρ) ⟨b :: rest, place⟩ = .ok () ⟨rest, place.after b⟩ := rfl
  simp only [exponentDigits, Bind.bind, EStateM.bind, hpeek, Option.bind]
  cases Byte.digit? b with
  | none => rfl
  | some d =>
      simp only [EStateM.bind, hadvance]
      split
      · rfl
      · rfl

theorem exponentDigits_nil (fuel n : Nat) (place : Position) :
    exponentDigits (ρ := ρ) fuel n ⟨[], place⟩ = .ok (some n) ⟨[], place⟩ := by
  cases fuel <;> rfl

theorem passes_exponentDigits (hi : Halts Byte.isDigit i) :
    ∀ {ds : List Nat} {n fuel : Nat}, AreDigits ds → ds.length ≤ fuel →
      ds.foldl (fun n d => 10 * n + d) n < 2 ^ 31 →
      Passes (ρ := ρ) (exponentDigits fuel n) (digitsText ds ++ i)
        (some (ds.foldl (fun n d => 10 * n + d) n)) i
  | [], n, 0, _, _, _ => Passes.pure (some n) i
  | [], n, fuel + 1, _, _, _ => by
      refine (passes_peek i).bind ?_
      rw [digit?_head_of_halts hi]
      exact Passes.pure (some n) i
  | d :: ds, n, fuel + 1, h, hfuel, hfits => by
      obtain ⟨hd, hds⟩ := AreDigits.tail h
      have hle := le_digits_foldl ds (10 * n + d)
      rw [List.foldl_cons] at hfits ⊢
      refine (passes_peek _).bind ?_
      simp only [digitsText, List.map_cons, List.cons_append, List.head?_cons, Option.bind_eq_bind,
        Option.bind_some, digit?_digitByte hd]
      refine (passes_advance _ _).bind ?_
      rw [if_pos (by omega)]
      exact passes_exponentDigits hi hds (by simpa using hfuel) hfits

/-- An exponent that is too large stops its reader at some digit. -/
theorem passes_exponentDigits_none (i : List UInt8) :
    ∀ {ds : List Nat} {n fuel : Nat}, AreDigits ds → ds.length ≤ fuel → n < 2 ^ 31 →
      2 ^ 31 ≤ ds.foldl (fun n d => 10 * n + d) n →
      ∃ left, AreDigits left ∧
        Passes (ρ := ρ) (exponentDigits fuel n) (digitsText ds ++ i) none (digitsText left ++ i)
  | [], n, _, _, _, hn, hlarge => absurd hlarge (by simpa using hn)
  | d :: ds, n, fuel + 1, h, hfuel, hn, hlarge => by
      obtain ⟨hd, hds⟩ := AreDigits.tail h
      have hstep : ∀ {left : List Nat},
          Passes (ρ := ρ) (if 10 * n + d < 2 ^ 31 then exponentDigits fuel (10 * n + d) else pure none)
            (digitsText ds ++ i) none (digitsText left ++ i) →
          Passes (ρ := ρ) (exponentDigits (fuel + 1) n) (digitsText (d :: ds) ++ i) none
            (digitsText left ++ i) := by
        intro left hleft
        refine (passes_peek _).bind ?_
        simp only [digitsText, List.map_cons, List.cons_append, List.head?_cons,
          Option.bind_eq_bind, Option.bind_some, digit?_digitByte hd]
        exact (passes_advance _ _).bind hleft
      by_cases hfits : 10 * n + d < 2 ^ 31
      · obtain ⟨left, hleft, hpass⟩ :=
          passes_exponentDigits_none i hds (by simpa using hfuel) hfits hlarge
        refine ⟨left, hleft, hstep ?_⟩
        rwa [if_pos hfits]
      · refine ⟨ds, hds, hstep ?_⟩
        rw [if_neg hfits]
        exact Passes.pure none _

section Behind

variable {d : Nat} {ds : List Nat}

/-- The digits behind the first one. -/
theorem passes_moreDigits (hds : AreDigits ds) (hi : Halts Byte.isDigit i)
    (hfits : ds.foldl (fun n d => 10 * n + d) d < 2 ^ 31) :
    Passes (ρ := ρ) (fun c => exponentDigits c.rest.length d c) (digitsText ds ++ i)
      (some (ds.foldl (fun n d => 10 * n + d) d)) i := by
  intro place
  have hfuel : ds.length ≤ (digitsText ds ++ i).length := by simp [digitsText]
  exact passes_exponentDigits hi hds hfuel hfits place

theorem passes_moreDigits_none (i : List UInt8) (hds : AreDigits ds) (hd : d < 10)
    (hlarge : 2 ^ 31 ≤ ds.foldl (fun n d => 10 * n + d) d) :
    ∃ left, AreDigits left ∧
      Passes (ρ := ρ) (fun c => exponentDigits c.rest.length d c) (digitsText ds ++ i) none
        (digitsText left ++ i) := by
  have hfuel : ds.length ≤ (digitsText ds ++ i).length := by simp [digitsText]
  have hsmall : d < 2 ^ 31 := Nat.lt_trans hd (by decide)
  obtain ⟨left, hleft, hpass⟩ := passes_exponentDigits_none i hds hfuel hsmall hlarge
  exact ⟨left, hleft, fun place => hpass place⟩

end Behind

theorem tries_scaledHere (negative : Bool) (significand : Nat) (e : Int) (i : List UInt8) :
    Tries (ρ := ρ) (scaledHere negative significand e) i
      ((scaled negative significand e).map .double) i := by
  rw [scaledHere]
  cases scaled negative significand e with
  | none => exact tries_flawHere .numberOutOfRange i i
  | some d => exact Passes.pure (Number.double d) i

/-- The sign of an exponent, in front of its first digit. -/
theorem passes_exponentSign {p : Power} (h : p.WellFormed) {d : Nat} (hd : d < 10) :
    Passes (ρ := ρ) exponentSign (p.sign.toList ++ digitByte d :: i) p.down (digitByte d :: i) := by
  have hplus : digitByte d ≠ Byte.plus := by revert d; decide
  have hminus : digitByte d ≠ Byte.minus := by revert d; decide
  rcases h.sign with hs | hs | hs <;> simp only [Power.down, hs]
  · refine (passes_peek _).bind ?_
    split
    · next heq => exact absurd (Option.some.inj heq) hplus
    · next heq => exact absurd (Option.some.inj heq) hminus
    · exact Passes.pure false _
  · exact (passes_peek _).bind ((passes_advance _ _).bind (Passes.pure false _))
  · exact (passes_peek _).bind ((passes_advance _ _).bind (Passes.pure true _))

theorem tries_exponent {p : Power} (h : p.WellFormed) (negative : Bool) (significand : Nat)
    (place : Int) (hi : Halts Byte.isDigit i) :
    Tries (ρ := ρ) (exponent negative significand place) (p.text ++ i)
      (p.number? negative significand place) i := by
  obtain ⟨d, ds, hd, hmore, hds⟩ := AreDigits.exists_cons h.digits h.nonempty
  simp only [Power.text, hds, digitsText, List.map_cons, List.cons_append, List.append_assoc]
  refine (passes_advance _ _).bind_tries
    ((passes_exponentSign h hd).bind_tries ((passes_next _ _).bind_tries ?_))
  simp only [digit?_digitByte hd]
  have hvalue : digitsValue p.digits = ds.foldl (fun n d => 10 * n + d) d := by
    simp [digitsValue, hds]
  simp only [Power.number?, hvalue]
  by_cases hfits : ds.foldl (fun n d => 10 * n + d) d < 2 ^ 31
  · rw [if_pos hfits]
    exact (passes_moreDigits hmore hi hfits).bind_tries (tries_scaledHere _ _ _ i)
  · rw [if_neg hfits]
    obtain ⟨left, hleft, hpass⟩ := passes_moreDigits_none i hmore hd (Nat.le_of_not_lt hfits)
    refine hpass.bind_tries ?_
    by_cases hout : significand ≠ 0 ∧ !p.down
    · simp only [if_pos hout]
      exact tries_flawHere .numberOutOfRange _ i
    · simp only [if_neg hout]
      exact (passes_digits hleft hi).bind (Passes.pure _ i)

/-! ## Numbers -/

theorem Halts.digit (h : Halts extendsNumber i) : Halts Byte.isDigit i := by
  intro b hb
  have := h b hb
  simp only [extendsNumber, Bool.or_eq_false_iff] at this
  exact this.1.1.1

theorem Halts.no_power (h : Halts extendsNumber i) :
    i.head? ≠ some Byte.smallE ∧ i.head? ≠ some Byte.bigE := by
  constructor <;> intro hb <;> exact absurd (h _ hb) (by decide)

theorem Halts.no_point (h : Halts extendsNumber i) : i.head? ≠ some Byte.point :=
  fun hb => absurd (h _ hb) (by decide)

theorem letter_not_digit {p : Power} (h : p.WellFormed) : Byte.isDigit p.letter = false := by
  rcases h.letter with hl | hl <;> rw [hl] <;> rfl

variable {l : Numeral}

theorem halts_powerText (h : l.WellFormed) (hi : Halts extendsNumber i) :
    Halts Byte.isDigit (l.powerText ++ i) := by
  cases hp : l.power with
  | none => simpa [Numeral.powerText, hp] using hi.digit
  | some p =>
      simp only [Numeral.powerText, hp, Option.map_some, Option.getD_some, Power.text,
        List.cons_append]
      exact halts_cons (letter_not_digit (h.power p hp))

theorem halts_fractionText (h : l.WellFormed) (hi : Halts extendsNumber i) :
    Halts Byte.isDigit (l.fractionText ++ (l.powerText ++ i)) := by
  by_cases hf : l.fraction = []
  · simpa [Numeral.fractionText, hf] using halts_powerText h hi
  · rw [Numeral.fractionText, if_neg hf]
    exact halts_cons rfl

/-- What comes behind the last digit in front of an exponent. -/
theorem tries_exponent? (h : l.WellFormed) (significand : Nat) (place : Int)
    (hi : Halts extendsNumber i) :
    Tries (ρ := ρ) (exponent? l.negative significand place) (l.powerText ++ i)
      (match l.power with
        | some p => p.number? l.negative significand place
        | none => (scaled l.negative significand place).map .double) i := by
  cases hp : l.power with
  | none =>
      simp only [Numeral.powerText, hp, Option.map_none, Option.getD_none, List.nil_append]
      refine (passes_peek i).bind_tries ?_
      split
      · next heq => exact absurd heq hi.no_power.1
      · next heq => exact absurd heq hi.no_power.2
      · exact tries_scaledHere _ _ _ i
  | some p =>
      simp only [Numeral.powerText, hp, Option.map_some, Option.getD_some]
      have hpower := h.power p hp
      have htries := tries_exponent (ρ := ρ) hpower l.negative significand place hi.digit
      refine (passes_peek _).bind_tries ?_
      rw [Power.text] at htries ⊢
      rcases hpower.letter with hl | hl <;> rw [hl] at htries ⊢ <;> exact htries

theorem tries_fraction (h : l.WellFormed) (hf : l.fraction ≠ []) (significand left : Nat)
    (hi : Halts extendsNumber i) :
    Tries (ρ := ρ) (fraction l.negative significand left)
      (l.fractionText ++ (l.powerText ++ i)) (l.behind? significand left) i := by
  rw [Numeral.fractionText, if_neg hf]
  refine (passes_advance _ _).bind_tries
    ((passes_digits h.fraction (halts_powerText h hi)).bind_tries ?_)
  have hempty : l.fraction.isEmpty = false := by simpa using hf
  simp only [hempty, Bool.false_eq_true, if_false]
  exact tries_exponent? h _ _ hi

section NumberRest

variable (h : l.WellFormed) (hi : Halts extendsNumber i)
include hi

/-- A number without a fraction and without an exponent. -/
theorem tries_numberRest_whole (hf : l.fraction = []) (hp : l.power = none) :
    Tries (ρ := ρ) (numberRest l.negative l.whole) i l.number? i := by
  cases hw : wholeDigits 0 l.whole with
  | mk significand left =>
      simp only [Numeral.number?, hw, hf, hp, Option.isNone_none, true_and, Numeral.behind?,
        fractionDigits, Int.ofNat_zero, Int.sub_zero]
      simp only [numberRest, hw]
      refine (passes_peek _).bind_tries ?_
      split
      · next heq => exact absurd heq hi.no_point
      · next heq => exact absurd heq hi.no_power.1
      · next heq => exact absurd heq hi.no_power.2
      · split
        · exact Passes.pure _ i
        · exact tries_scaledHere _ _ _ i

include h

/-- A number with an exponent and without a fraction. -/
theorem tries_numberRest_power (hf : l.fraction = []) {p : Power} (hp : l.power = some p) :
    Tries (ρ := ρ) (numberRest l.negative l.whole) (p.text ++ i) l.number? i := by
  cases hw : wholeDigits 0 l.whole with
  | mk significand left =>
      simp only [Numeral.number?, hw, hf, hp, Option.isNone_some, Bool.false_eq_true, false_and,
        and_false, if_false, Numeral.behind?, fractionDigits, Int.ofNat_zero, Int.sub_zero]
      simp only [numberRest, hw]
      refine (passes_peek _).bind_tries ?_
      have hpower := h.power p hp
      have htries := tries_exponent (ρ := ρ) hpower l.negative significand left hi.digit
      rw [Power.text] at htries ⊢
      rcases hpower.letter with hl | hl <;> rw [hl] at htries ⊢ <;> exact htries

theorem tries_numberRest_fraction (hf : l.fraction ≠ []) :
    Tries (ρ := ρ) (numberRest l.negative l.whole) (l.fractionText ++ (l.powerText ++ i))
      l.number? i := by
  cases hw : wholeDigits 0 l.whole with
  | mk significand left =>
      simp only [Numeral.number?, hw, hf, false_and, if_false]
      simp only [numberRest, hw]
      refine (passes_peek _).bind_tries ?_
      have htries := tries_fraction (ρ := ρ) h hf significand left hi
      rw [Numeral.fractionText, if_neg hf] at htries ⊢
      exact htries

theorem tries_numberRest :
    Tries (ρ := ρ) (numberRest l.negative l.whole) (l.fractionText ++ (l.powerText ++ i))
      l.number? i := by
  by_cases hf : l.fraction = []
  · rw [Numeral.fractionText, if_pos hf, List.nil_append, Numeral.powerText]
    cases hp : l.power with
    | none => exact tries_numberRest_whole hi hf hp
    | some p => exact tries_numberRest_power h hi hf hp
  · exact tries_numberRest_fraction h hi hf

end NumberRest

/-- A number is read up to its last whole digit, whatever it stands for; its sign has been passed. -/
theorem comesTo_numberRest (h : l.WellFormed) (hi : Halts Byte.isDigit i) :
    ComesTo (ρ := ρ) (number l.negative) (digitsText l.whole ++ i) (numberRest l.negative l.whole)
      i := by
  obtain ⟨d, ds, hd, hmore, hds⟩ := AreDigits.exists_cons h.whole h.nonempty
  rw [hds]
  refine (passes_next _ _).comesTo ?_
  simp only [digit?_digitByte hd]
  split
  · next heq => cases heq
  · next heq =>
      cases heq
      obtain rfl : ds = [] := by simpa [hds] using h.head (by simp [hds])
      refine (passes_peek _).comesTo ?_
      rw [List.map_nil, List.append_eq, List.nil_append, digit?_head_of_halts hi]
      exact ComesTo.refl _ i
  · next heq =>
      cases heq
      exact (passes_digits hmore hi).comesTo (ComesTo.refl _ i)

/-! ## Passing numbers -/

theorem passes_skipExponent {p : Power} (h : p.WellFormed) (hi : Halts Byte.isDigit i) :
    Passes (ρ := ρ) skipExponent (p.text ++ i) () i := by
  obtain ⟨d, ds, hd, hmore, hds⟩ := AreDigits.exists_cons h.digits h.nonempty
  simp only [Power.text, hds, digitsText, List.map_cons, List.cons_append, List.append_assoc]
  refine (passes_advance _ _).bind ((passes_exponentSign h hd).bind ((passes_next _ _).bind ?_))
  simp only [Option.bind_eq_bind, Option.bind_some, digit?_digitByte hd]
  exact (passes_digits hmore hi).bind (Passes.pure () i)

theorem passes_skipExponent? (h : l.WellFormed) (hi : Halts extendsNumber i) :
    Passes (ρ := ρ) skipExponent? (l.powerText ++ i) () i := by
  refine (passes_peek _).bind ?_
  cases hp : l.power with
  | none =>
      simp only [Numeral.powerText, hp, Option.map_none, Option.getD_none, List.nil_append]
      split
      · next heq => exact absurd heq hi.no_power.1
      · next heq => exact absurd heq hi.no_power.2
      · exact Passes.pure () i
  | some p =>
      simp only [Numeral.powerText, hp, Option.map_some, Option.getD_some]
      have hpower := h.power p hp
      have hpass := passes_skipExponent (ρ := ρ) hpower hi.digit
      rw [Power.text] at hpass ⊢
      rcases hpower.letter with hl | hl <;> rw [hl] at hpass ⊢ <;> exact hpass

theorem passes_skipNumberRest (h : l.WellFormed) (hi : Halts extendsNumber i) :
    Passes (ρ := ρ) skipNumberRest (l.fractionText ++ (l.powerText ++ i)) () i := by
  refine (passes_peek _).bind ?_
  by_cases hf : l.fraction = []
  · have hpoint : (l.powerText ++ i).head? ≠ some Byte.point := by
      cases hp : l.power with
      | none => simpa [Numeral.powerText, hp] using hi.no_point
      | some p =>
          have hletter : p.letter ≠ Byte.point := by
            rcases (h.power p hp).letter with hl | hl <;> rw [hl] <;> decide
          simpa [Numeral.powerText, hp, Power.text] using hletter
    rw [Numeral.fractionText, if_pos hf, List.nil_append]
    split
    · next heq => exact absurd heq hpoint
    · exact passes_skipExponent? h hi
  · rw [Numeral.fractionText, if_neg hf]
    refine (passes_advance _ _).bind
      ((passes_digits h.fraction (halts_powerText h hi)).bind ?_)
    have hempty : l.fraction.isEmpty = false := by simpa using hf
    simp only [hempty, Bool.false_eq_true, if_false]
    exact passes_skipExponent? h hi

theorem passes_skipNumber (h : l.WellFormed) (hi : Halts extendsNumber i) :
    Passes (ρ := ρ) skipNumber
      (digitsText l.whole ++ (l.fractionText ++ (l.powerText ++ i))) () i := by
  obtain ⟨d, ds, hd, hmore, hds⟩ := AreDigits.exists_cons h.whole h.nonempty
  have hrest := passes_skipNumberRest (ρ := ρ) h hi
  have hhalts := halts_fractionText h hi
  rw [hds]
  refine (passes_next _ _).bind ?_
  simp only [Option.bind_eq_bind, Option.bind_some, digit?_digitByte hd]
  split
  · next heq => cases heq
  · next heq =>
      cases heq
      obtain rfl : ds = [] := by simpa [hds] using h.head (by simp [hds])
      refine (passes_peek _).bind ?_
      have hnone := digit?_head_of_halts hhalts
      rw [Option.bind_eq_bind] at hnone
      rw [List.map_nil, List.append_eq, List.nil_append, hnone]
      exact hrest
  · exact (passes_digits hmore hhalts).bind hrest

end OData.Json.Scan
