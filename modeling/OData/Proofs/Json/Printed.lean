/-
# `OData.Proofs.Json.Printed` — doubles as they are written

Every finite double is written as a number that is in range, so there is a double that its text is
read as: `Double.reread`.  It need not be the same double, because a number is read with more than
one rounding; whether it is (`Double.ReadsBack`) is a property of the double.

The three layouts of a decimal are three numerals for the same digits and the same place.
-/
import OData.Proofs.Json.Quoted
import OData.Proofs.Number.Shortest
import OData.Proofs.Value.Reading

namespace OData

open Json

/-! ## Digits that fit -/

theorem digitsValue_append (ds es : List Nat) :
    digitsValue (ds ++ es) = es.foldl (fun n d => 10 * n + d) (digitsValue ds) := by
  rw [digitsValue, List.foldl_append, digitsValue]

theorem fractionDigits_eq : ∀ {ds : List Nat} {n : Nat},
    ds.foldl (fun n d => 10 * n + d) n ≤ Number.greatest →
      Number.fractionDigits n ds = (ds.foldl (fun n d => 10 * n + d) n, ds.length)
  | [], n, _ => rfl
  | d :: ds, n, h => by
      rw [List.foldl_cons] at h ⊢
      have hstep : n * 10 + d = 10 * n + d := by omega
      have hfits := Nat.le_trans (Scan.le_digits_foldl ds (10 * n + d)) h
      rw [Number.fractionDigits, hstep, if_pos hfits, fractionDigits_eq h]
      rfl

/-- The number of a numeral with a point or an exponent, all of whose digits fit. -/
theorem number?_of_fits {l : Numeral} (h : digitsValue (l.whole ++ l.fraction) ≤ Number.greatest)
    (hparts : l.fraction ≠ [] ∨ l.power.isSome = true) :
    l.number? = match l.power with
      | some p => p.number? l.negative (digitsValue (l.whole ++ l.fraction)) (-l.fraction.length)
      | none => (Number.scaled l.negative (digitsValue (l.whole ++ l.fraction))
          (-l.fraction.length)).map .double := by
  have hwhole : Number.wholeDigits 0 l.whole = (digitsValue l.whole, 0) := by
    refine wholeDigits_eq (Nat.le_trans (Scan.le_digits_foldl l.fraction _) ?_)
    rwa [← digitsValue, ← digitsValue_append]
  have hfraction : Number.fractionDigits (digitsValue l.whole) l.fraction =
      (digitsValue (l.whole ++ l.fraction), l.fraction.length) := by
    rw [fractionDigits_eq (by rwa [← digitsValue_append]), ← digitsValue_append]
  have hnot : ¬ (l.fraction = [] ∧ l.power.isNone = true ∧ 0 = 0) := by
    rintro ⟨hnil, hnone, -⟩
    rcases hparts with hne | hsome
    · exact hne hnil
    · rw [Option.isNone_iff_eq_none] at hnone
      simp [hnone] at hsome
  rw [Numeral.number?, hwhole]
  refine (if_neg hnot).trans ?_
  cases hpower : l.power <;> simp [Numeral.behind?, hfraction, hpower]

/-! ## Decimals -/

namespace Decimal

/-- The digits as numbers. -/
def digitValues (d : Decimal) : List Nat := d.digits.map digitValue

/-- The exponent as it is written. -/
def power (d : Decimal) : Power :=
  ⟨Byte.smallE, some (if d.exponent < 0 then Byte.minus else Byte.plus),
    (Nat.toDigits 10 d.exponent.natAbs).map digitValue⟩

/-- The numeral that a decimal is written as. -/
def numeral (negative : Bool) (d : Decimal) : Numeral :=
  let whole := d.exponent.toNat + 1
  if -5 ≤ d.exponent ∧ d.exponent ≤ 15 then
    if d.exponent < 0 then
      ⟨negative, [0], List.replicate ((-d.exponent).toNat - 1) 0 ++ d.digitValues, none⟩
    else if d.digits.length ≤ whole then
      ⟨negative, d.digitValues ++ List.replicate (whole - d.digits.length) 0, [0], none⟩
    else ⟨negative, d.digitValues.take whole, d.digitValues.drop whole, none⟩
  else
    ⟨negative, d.digitValues.take 1, d.digitValues.drop 1, some d.power⟩

variable {d : Decimal} (h : d.Readable) (negative : Bool)
include h

theorem digitValues_areDigits : AreDigits d.digitValues := areDigits_map h.digits

omit h in
theorem digitsValue_digitValues (d : Decimal) : digitsValue d.digitValues = d.significand :=
  digitsValue_map d.digits

theorem digitValues_ne_nil : d.digitValues ≠ [] := by
  simpa [digitValues] using h.nonempty

theorem head_digitValues_ne (hhead : d.digits.head? ≠ some '0') : d.digitValues.head? ≠ some 0 := by
  obtain ⟨c, cs, hcs⟩ := List.exists_cons_of_ne_nil h.nonempty
  have hc : c.isDigit = true := h.digits c (hcs ▸ List.mem_cons_self)
  simp only [digitValues, hcs, List.map_cons, List.head?_cons, ne_eq, Option.some.injEq] at hhead ⊢
  intro hzero
  refine hhead (Char.toNat_inj.1 ?_)
  have h0 : '0'.toNat = 48 := rfl
  simp only [Char.isDigit, Bool.and_eq_true, decide_eq_true_eq, UInt32.le_iff_toNat_le] at hc
  have hle : 48 ≤ c.toNat := hc.1
  simp only [digitValue] at hzero
  omega

/-- The first digit is no zero, but for the one digit of zero itself. -/
theorem eq_zero_of_head (hhead : d.digitValues.head? = some 0) : d = ⟨['0'], 0⟩ := by
  rcases h.head with hne | hzero
  · exact absurd hhead (head_digitValues_ne h hne)
  · exact hzero

theorem areDigits_take (n : Nat) : AreDigits (d.digitValues.take n) :=
  fun e he => digitValues_areDigits h e (List.mem_of_mem_take he)

theorem areDigits_drop (n : Nat) : AreDigits (d.digitValues.drop n) :=
  fun e he => digitValues_areDigits h e (List.mem_of_mem_drop he)

omit h in
theorem areDigits_append {ds es : List Nat} (hds : AreDigits ds) (hes : AreDigits es) :
    AreDigits (ds ++ es) :=
  List.forall_mem_append.2 ⟨hds, hes⟩

omit h in
theorem areDigits_replicate_zero (n : Nat) : AreDigits (List.replicate n 0) := by
  intro e he
  rw [List.eq_of_mem_replicate he]
  decide

/-- The digits in front of the point do not begin with a needless zero. -/
theorem head_take {n : Nat} (hn : 0 < n) (hhead : (d.digitValues.take n).head? = some 0) :
    d.digitValues.take n = [0] := by
  obtain ⟨n, rfl⟩ : ∃ m, n = m + 1 := ⟨n - 1, by omega⟩
  have hall : d.digitValues.head? = some 0 := by
    rwa [List.head?_take, if_neg (by omega)] at hhead
  rw [eq_zero_of_head h hall]
  simp [digitValues, digitValue]

theorem numeral_wellFormed : (d.numeral negative).WellFormed := by
  have hdigits := digitValues_areDigits h
  have hne := digitValues_ne_nil h
  rw [numeral]
  split
  · split
    · exact ⟨by simp [AreDigits], by simp, fun _ => rfl,
        areDigits_append (areDigits_replicate_zero _) hdigits, nofun⟩
    · split
      · refine ⟨areDigits_append hdigits (areDigits_replicate_zero _), by simp [hne], ?_,
          by simp [AreDigits], nofun⟩
        intro hhead
        rw [List.head?_append, List.head?_eq_some_head hne, Option.some_or,
          ← List.head?_eq_some_head] at hhead
        rw [eq_zero_of_head h hhead]
        rfl
      · exact ⟨areDigits_take h _, by simp [hne], head_take h (by omega), areDigits_drop h _, nofun⟩
  · refine ⟨areDigits_take h 1, by simp [hne], head_take h Nat.one_pos, areDigits_drop h 1, ?_⟩
    rintro p ⟨⟩
    refine ⟨.inl rfl, ?_, areDigits_map fun _ => Text.isDigit_of_mem_toDigits, by simp [power]⟩
    by_cases hneg : d.exponent < 0 <;> simp [power, hneg]

/-! ## Their texts -/

omit h in
theorem map_digitValue_replicate (n : Nat) :
    (List.replicate n '0').map digitValue = List.replicate n 0 := by
  rw [List.map_replicate]
  rfl

omit h in
theorem isDigit_replicate (n : Nat) : ∀ c ∈ List.replicate n '0', c.isDigit = true := by
  intro c hc
  rw [List.eq_of_mem_replicate hc]
  rfl

theorem text_below_one (k : Nat) :
    (['0', '.'] ++ List.replicate k '0' ++ d.digits).flatMap String.utf8EncodeChar =
      digitsText [0] ++ Byte.point :: digitsText (List.replicate k 0 ++ d.digitValues) := by
  have hall : ∀ c ∈ List.replicate k '0' ++ d.digits, c.isDigit = true :=
    List.forall_mem_append.2 ⟨isDigit_replicate k, h.digits⟩
  rw [List.append_assoc, List.flatMap_append, flatMap_encodeChar_digits hall, List.map_append,
    map_digitValue_replicate]
  rfl

theorem text_whole (k : Nat) :
    (d.digits ++ List.replicate k '0' ++ ['.', '0']).flatMap String.utf8EncodeChar =
      digitsText (d.digitValues ++ List.replicate k 0) ++ Byte.point :: digitsText [0] := by
  have hall : ∀ c ∈ d.digits ++ List.replicate k '0', c.isDigit = true :=
    List.forall_mem_append.2 ⟨h.digits, isDigit_replicate k⟩
  rw [List.flatMap_append, flatMap_encodeChar_digits hall, List.map_append, map_digitValue_replicate]
  rfl

theorem text_split (n : Nat) :
    (d.digits.take n ++ '.' :: d.digits.drop n).flatMap String.utf8EncodeChar =
      digitsText (d.digitValues.take n) ++ Byte.point :: digitsText (d.digitValues.drop n) := by
  have htake : ∀ c ∈ d.digits.take n, c.isDigit = true :=
    fun c hc => h.digits c (List.mem_of_mem_take hc)
  have hdrop : ∀ c ∈ d.digits.drop n, c.isDigit = true :=
    fun c hc => h.digits c (List.mem_of_mem_drop hc)
  rw [List.flatMap_append, List.flatMap_cons, flatMap_encodeChar_digits htake,
    flatMap_encodeChar_digits hdrop, digitValues, List.map_take, List.map_drop]
  rfl

omit h in
theorem text_power (d : Decimal) :
    ('e' :: (if d.exponent < 0 then '-' else '+') ::
      Nat.toDigits 10 d.exponent.natAbs).flatMap String.utf8EncodeChar = d.power.text := by
  rw [List.flatMap_cons, List.flatMap_cons, flatMap_encodeChar_digits fun _ => Text.isDigit_of_mem_toDigits]
  by_cases hneg : d.exponent < 0 <;> simp only [power, Power.text, hneg, if_true, if_false] <;> rfl

theorem text_scientific :
    (Notation.scientific d).flatMap String.utf8EncodeChar =
      digitsText (d.digitValues.take 1) ++
        ((if d.digitValues.drop 1 = [] then [] else Byte.point :: digitsText (d.digitValues.drop 1)) ++
          d.power.text) := by
  obtain ⟨first, rest, hdigits⟩ := List.exists_cons_of_ne_nil h.nonempty
  have hall := h.digits
  rw [hdigits, List.forall_mem_cons] at hall
  have hfirst := encodeChar_digit hall.1
  rw [← text_power d]
  cases rest with
  | nil =>
      simp only [Notation.scientific, hdigits, digitValues, List.map_cons, List.map_nil,
        List.take_succ_cons, List.take_nil, List.drop_succ_cons, List.drop_nil, if_true,
        List.flatMap_cons, hfirst]
      rfl
  | cons second rest =>
      have hrest := flatMap_encodeChar_digits hall.2
      have htext : Notation.scientific d = first :: '.' :: ((second :: rest) ++
          'e' :: (if d.exponent < 0 then '-' else '+') :: Nat.toDigits 10 d.exponent.natAbs) := by
        simp [Notation.scientific, hdigits]
      have hdrop : d.digitValues.drop 1 = (second :: rest).map digitValue := by
        simp [digitValues, hdigits]
      have htake : d.digitValues.take 1 = [digitValue first] := by simp [digitValues, hdigits]
      have hne : (second :: rest).map digitValue ≠ [] := by simp
      rw [htext, List.flatMap_cons, List.flatMap_cons, List.flatMap_append, hfirst, hrest, hdrop,
        htake, if_neg hne]
      rfl

theorem numeral_text :
    (d.numeral negative).text = ((if negative then ['-'] else []) ++
      Notation.jsonNumber.magnitude d).flatMap String.utf8EncodeChar := by
  have hsign : (if negative then ['-'] else []).flatMap String.utf8EncodeChar =
      if negative then [Byte.minus] else [] := by cases negative <;> rfl
  have hne := digitValues_ne_nil h
  have hstyle : Notation.jsonNumber.magnitude d =
      if -5 ≤ d.exponent ∧ d.exponent ≤ 15 then Notation.positional d else Notation.scientific d :=
    rfl
  rw [List.flatMap_append, hsign, numeral, hstyle]
  simp only [Notation.positional]
  split
  · split
    · rw [text_below_one h]
      simp [Numeral.text, Numeral.signText, Numeral.fractionText, Numeral.powerText, hne]
    · split
      · rw [text_whole h]
        simp [Numeral.text, Numeral.signText, Numeral.fractionText, Numeral.powerText]
      · next hlong =>
          have hdrop : d.digitValues.drop (d.exponent.toNat + 1) ≠ [] := by
            simpa [digitValues] using hlong
          rw [text_split h]
          simp [Numeral.text, Numeral.signText, Numeral.fractionText, Numeral.powerText, hdrop]
  · rw [text_scientific h]
    simp [Numeral.text, Numeral.signText, Numeral.fractionText, Numeral.powerText]

/-! ## Their numbers -/

theorem significand_le : d.significand ≤ Number.greatest :=
  Nat.le_trans h.small (by decide)

omit h in
theorem digitsValue_append_zeros (ds : List Nat) :
    ∀ k, digitsValue (ds ++ List.replicate k 0) = digitsValue ds * 10 ^ k
  | 0 => by simp
  | k + 1 => by
      rw [List.replicate_succ', ← List.append_assoc, digitsValue_append, digitsValue_append_zeros ds k]
      simp only [List.foldl_cons, List.foldl_nil, Nat.add_zero, Nat.pow_succ]
      ac_rfl

omit h in
theorem digitsValue_zeros_append (k : Nat) (ds : List Nat) :
    digitsValue (List.replicate k 0 ++ ds) = digitsValue ds := by
  have hzero := digitsValue_append_zeros [] k
  rw [List.nil_append] at hzero
  rw [digitsValue_append, hzero, digitsValue, digitsValue]
  simp

omit h in
/-- Digits behind a point make the place negative, where everything is in range. -/
theorem number?_of_fraction {l : Numeral} (hfits : digitsValue (l.whole ++ l.fraction) ≤ Number.greatest)
    (hfraction : l.fraction ≠ []) (hpower : l.power = none) :
    ∃ e, l.number? = some (.double e) := by
  rw [number?_of_fits hfits (.inl hfraction), hpower]
  have hlength := List.length_pos_iff.2 hfraction
  have hsome : (Number.scaled l.negative (digitsValue (l.whole ++ l.fraction))
      (-l.fraction.length)).isSome = true :=
    Number.scaled_isSome (Number.scale_isSome_of_neg (by omega))
  obtain ⟨e, he⟩ := Option.isSome_iff_exists.1 hsome
  exact ⟨e, by simp only [he, Option.map_some]⟩

theorem significand_pos (hne : d ≠ ⟨['0'], 0⟩) : 0 < d.significand := by
  obtain ⟨e, es, hes⟩ := List.exists_cons_of_ne_nil (digitValues_ne_nil h)
  have hhead := head_digitValues_ne h (h.head.resolve_right hne)
  have hpos : 0 < e := by
    rw [hes, List.head?_cons, ne_eq, Option.some.injEq] at hhead
    omega
  have hle := Scan.le_digits_foldl es (10 * 0 + e)
  rw [← digitsValue_digitValues, hes, digitsValue, List.foldl_cons]
  omega

/-- In scientific notation the place may be positive, and then the size of the decimal counts. -/
theorem number?_of_power {l : Numeral} (hwhole : l.whole = d.digitValues.take 1)
    (hfraction : l.fraction = d.digitValues.drop 1) (hpower : l.power = some d.power)
    (hne : d ≠ ⟨['0'], 0⟩) : ∃ e, l.number? = some (.double e) := by
  have hdigits : digitsValue (l.whole ++ l.fraction) = d.significand := by
    rw [hwhole, hfraction, List.take_append_drop, digitsValue_digitValues]
  have hlength : (l.fraction.length : Int) = (d.digits.length - 1 : Nat) := by
    rw [hfraction, List.length_drop, digitValues, List.length_map]
  have hexponent : digitsValue d.power.digits = d.exponent.natAbs := by
    rw [power, digitsValue_map, Nat.ofDigitChars_ten_toDigits]
  -- The reader counts the digits behind the point against the exponent; what is left is the place.
  have hplace : (if d.power.down then -(l.fraction.length : Int) - d.exponent.natAbs
      else -(l.fraction.length : Int) + d.exponent.natAbs) = d.place := by
    rw [place, hlength]
    by_cases hneg : d.exponent < 0
    · have hdown : d.power.down = true := by simp [power, Power.down, hneg]
      rw [if_pos hdown]
      omega
    · have hup : ¬ d.power.down = true := by
        simp [power, Power.down, hneg, show Byte.plus ≠ Byte.minus by decide]
      rw [if_neg hup]
      omega
  have hsome : (Number.scaled l.negative d.significand d.place).isSome = true := by
    refine Number.scaled_isSome ?_
    rcases Int.lt_or_le d.place 0 with hlt | hle
    · exact Number.scale_isSome_of_neg hlt
    · obtain ⟨e, he⟩ := Int.eq_ofNat_of_zero_le hle
      rw [he]
      exact Number.scale_isSome_of_le (significand_pos h hne) h.small (h.inRange e he)
  obtain ⟨e, he⟩ := Option.isSome_iff_exists.1 hsome
  refine ⟨e, ?_⟩
  rw [number?_of_fits (by rw [hdigits]; exact significand_le h) (.inr (by rw [hpower]; rfl)), hpower]
  simp only [Power.number?, hexponent, h.exponent, if_true, hdigits, hplace, he, Option.map_some]

omit h in
theorem digitsValue_lt : ∀ {ds : List Nat} {n m : Nat}, AreDigits ds → n < m →
    ds.foldl (fun n d => 10 * n + d) n < m * 10 ^ ds.length
  | [], n, m, _, hn => by simpa using hn
  | d :: ds, n, m, hds, hn => by
      obtain ⟨hd, hds⟩ := Scan.AreDigits.tail hds
      have hlt := digitsValue_lt hds (show 10 * n + d < 10 * m by omega)
      rw [List.foldl_cons, List.length_cons, Nat.pow_succ]
      calc _ < 10 * m * 10 ^ ds.length := hlt
        _ = m * (10 ^ ds.length * 10) := by ac_rfl

/-- Sixteen places in front of the point fit, and one behind it. -/
theorem significand_mul_le {whole : Nat} (hwhole : whole ≤ 16) (hlength : d.digits.length ≤ whole) :
    d.significand * 10 ^ (whole - d.digits.length) * 10 ^ 1 ≤ Number.greatest := by
  have hlt := digitsValue_lt (digitValues_areDigits h) Nat.zero_lt_one
  rw [← digitsValue, digitsValue_digitValues, digitValues, List.length_map, Nat.one_mul] at hlt
  have hpow : 10 ^ d.digits.length * 10 ^ (whole - d.digits.length) = 10 ^ whole := by
    rw [← Nat.pow_add]
    congr 1
    omega
  have hwhole' := Nat.pow_le_pow_right (show 0 < 10 by decide) hwhole
  calc d.significand * 10 ^ (whole - d.digits.length) * 10 ^ 1
      ≤ 10 ^ d.digits.length * 10 ^ (whole - d.digits.length) * 10 ^ 1 :=
        Nat.mul_le_mul_right _ (Nat.mul_le_mul_right _ (Nat.le_of_lt hlt))
    _ = 10 ^ whole * 10 ^ 1 := by rw [hpow]
    _ ≤ 10 ^ 16 * 10 ^ 1 := Nat.mul_le_mul_right _ hwhole'
    _ ≤ Number.greatest := by decide

/-- Every decimal that is written for a double is read as some double. -/
theorem numeral_number? : ∃ e, (d.numeral negative).number? = some (.double e) := by
  have hvalue := digitsValue_digitValues d
  have hle := significand_le h
  rw [numeral]
  -- In turn: below one, with zeros up to the point, with a point among the digits, with a power.
  split
  · split
    · refine number?_of_fraction ?_ (by simp [digitValues_ne_nil h]) rfl
      change digitsValue (List.replicate ((-d.exponent).toNat - 1 + 1) 0 ++ d.digitValues) ≤ _
      rw [digitsValue_zeros_append, hvalue]
      exact hle
    · split
      · next hplace hneg hlong =>
          refine number?_of_fraction ?_ (by simp) rfl
          change digitsValue (d.digitValues ++ List.replicate (d.exponent.toNat + 1 - d.digits.length) 0 ++
            List.replicate 1 0) ≤ _
          rw [digitsValue_append_zeros, digitsValue_append_zeros, hvalue]
          exact significand_mul_le h (by omega) hlong
      · next hlong =>
          refine number?_of_fraction ?_ (by simpa [digitValues] using hlong) rfl
          change digitsValue (d.digitValues.take _ ++ d.digitValues.drop _) ≤ _
          rw [List.take_append_drop, hvalue]
          exact hle
  · next hplace =>
      refine number?_of_power h rfl rfl rfl ?_
      rintro rfl
      exact hplace (by decide)

end Decimal

/-! ## Doubles -/

namespace Double

/-- The numeral that a finite double is written as. -/
def numeral (negative : Bool) (code : Fin codes) : Numeral :=
  if code.val = 0 then ⟨negative, [0], [0], none⟩ else (shortest code).numeral negative

theorem numeral_wellFormed (negative : Bool) (code : Fin codes) :
    (numeral negative code).WellFormed := by
  rw [numeral]
  split
  · exact ⟨by simp [AreDigits], by simp, fun _ => rfl, by simp [AreDigits], nofun⟩
  · next hne =>
      exact Decimal.numeral_wellFormed (readable_shortest (Nat.pos_of_ne_zero hne) code.isLt) negative

theorem numeral_text (negative : Bool) (code : Fin codes) :
    (numeral negative code).text = Text.Utf8.encode (doubleText (.finite negative code)) := by
  rw [doubleText, Notation.text?, Option.getD_some, Text.Utf8.encode_ofList, numeral]
  split
  · cases negative <;> rfl
  · next hne =>
      exact Decimal.numeral_text (readable_shortest (Nat.pos_of_ne_zero hne) code.isLt) negative

theorem numeral_number? (negative : Bool) (code : Fin codes) :
    ∃ e, (numeral negative code).number? = some (.double e) := by
  rw [numeral]
  split
  · exact Decimal.number?_of_fraction (Nat.zero_le Number.greatest) (by simp) rfl
  · next hne =>
      exact Decimal.numeral_number? (readable_shortest (Nat.pos_of_ne_zero hne) code.isLt) negative

/-- The double that the text of a finite double is read as. -/
def reread : Double → Double
  | finite negative code =>
    match (numeral negative code).number? with
    | some (.double d) => d
    | _ => finite negative code
  | d => d

/-- The text of a finite double is a number in range. -/
theorem numberText_doubleText (negative : Bool) (code : Fin codes) :
    NumberText (.double (reread (.finite negative code)))
      (Text.Utf8.encode (doubleText (.finite negative code))) := by
  obtain ⟨e, he⟩ := numeral_number? negative code
  refine ⟨numeral negative code, numeral_wellFormed negative code, ?_, (numeral_text negative code).symm⟩
  simp only [reread, he]

theorem run_scan_doubleText (negative : Bool) (code : Fin codes) :
    Scan.run (Value.scan (ρ := Unit) 0) (Text.Utf8.encode (doubleText (.finite negative code))) =
      .ok (.double (reread (.finite negative code))) := by
  have hahead : (Tree.double (reread (.finite negative code))).Ahead
      (Text.Utf8.encode (doubleText (.finite negative code))) [] :=
    ⟨[], _, Scan.blank_nil, numberText_doubleText negative code, Scan.halts_nil _, by simp⟩
  have hreads := (Value.reads_scan (ρ := Unit) (Nat.le_refl 0) hahead).run Scan.blank_nil
  cases hrun : Scan.run (Value.scan (ρ := Unit) 0)
      (Text.Utf8.encode (doubleText (.finite negative code))) with
  | ok v =>
      rw [hrun] at hreads
      exact congrArg Except.ok hreads.2
  | error fault =>
      rw [hrun] at hreads
      exact absurd List.nodup_nil hreads.1

/-- The text of the double is read as this double and no other. -/
def ReadsBack (d : Double) : Prop :=
  Scan.run (Value.scan (ρ := Unit) 0) (Text.Utf8.encode (doubleText d)) = .ok (.double d)

theorem readsBack_iff {negative : Bool} {code : Fin codes} :
    (finite negative code).ReadsBack ↔
      reread (finite negative code) = finite negative code := by
  rw [ReadsBack, run_scan_doubleText, Except.ok.injEq, Value.double.injEq]

theorem reread_eq {d : Double} (h : d.ReadsBack) : d.reread = d := by
  cases d with
  | finite negative code => exact readsBack_iff.1 h
  | _ => rfl

end Double

end OData
