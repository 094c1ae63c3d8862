/-
# `OData.Proofs.Json.Quoted` — strings and integers as they are written

What is written for a string or an integer is one of the texts that the grammar has for it: a string
with its marks, backslashes and controls escaped, and an integer as a numeral without point and
exponent.
-/
import OData.Proofs.Json.Numbers
import OData.Proofs.Text.Integer
import OData.Proofs.Text.Utf8

namespace OData.Json

open Scan

/-! ## Strings -/

/-- The bytes that a character is written with in a string. -/
def escapedBytes (c : Char) : List UInt8 := (escapeChar c).flatMap String.utf8EncodeChar

def hexByte (n : Nat) : UInt8 := UInt8.ofNat (Nat.digitChar n).toNat

/-- The code of a control, as it is written and as it is read. -/
theorem hexCode?_control : ∀ n < 0x20,
    (hex2 n).flatMap String.utf8EncodeChar = [hexByte (n / 16), hexByte (n % 16)] ∧
      hexCode? Byte.zero Byte.zero (hexByte (n / 16)) (hexByte (n % 16)) = some n := by
  decide

theorem piece_control {c : Char} (h : c.toNat < 0x20) :
    Piece c ((['\\', 'u', '0', '0'] ++ hex2 c.toNat).flatMap String.utf8EncodeChar) := by
  obtain ⟨htext, hcode⟩ := hexCode?_control c.toNat h
  have hpiece : Piece (Char.ofNat c.toNat)
      (codeText Byte.zero Byte.zero (hexByte (c.toNat / 16)) (hexByte (c.toNat % 16))) := by
    refine Piece.code hcode ?_ ?_
    · simp only [isLeadingSurrogate, Bool.and_eq_false_iff, decide_eq_false_iff_not]
      omega
    · simp only [isTrailingSurrogate, Bool.and_eq_false_iff, decide_eq_false_iff_not]
      omega
  rw [Char.ofNat_toNat] at hpiece
  rw [List.flatMap_append, htext]
  exact hpiece

theorem piece_escapedBytes (c : Char) : Piece c (escapedBytes c) := by
  unfold escapedBytes escapeChar
  split
  · exact Piece.letter (e := Byte.quote) rfl
  · exact Piece.letter (e := Byte.backslash) rfl
  · exact Piece.letter (e := Byte.backspace) rfl
  · exact Piece.letter (e := Byte.tab) rfl
  · exact Piece.letter (e := Byte.lineFeed) rfl
  · exact Piece.letter (e := Byte.formFeed) rfl
  · exact Piece.letter (e := Byte.carriageReturn) rfl
  · next hquote hslash _ _ _ _ _ =>
      split
      · next hlow => exact piece_control hlow
      · next hlow =>
          simp only [List.flatMap_cons, List.flatMap_nil, List.append_nil]
          exact Piece.plain (by omega) hquote hslash

theorem inside_escapedBytes : ∀ cs : List Char, Inside cs (cs.flatMap escapedBytes)
  | [] => Inside.nil
  | c :: cs => Inside.cons (piece_escapedBytes c) (inside_escapedBytes cs)

/-- A string is written as the string that it is. -/
theorem stringText_quoted (s : String) : StringText s (Text.Utf8.encode (quoted s)) := by
  refine ⟨_, inside_escapedBytes s.toList, ?_⟩
  rw [quoted, Text.Utf8.encode_ofList, List.cons_append, List.flatMap_cons, List.flatMap_append,
    List.flatMap_assoc]
  rfl

/-! ## Integers -/

/-- The value of a digit as a character. -/
def digitValue (c : Char) : Nat := c.toNat - '0'.toNat

theorem digitValue_lt {c : Char} (h : c.isDigit = true) : digitValue c < 10 := by
  simp only [Char.isDigit, Bool.and_eq_true, decide_eq_true_eq, UInt32.le_iff_toNat_le] at h
  have h9 : c.toNat ≤ 57 := h.2
  have h0 : '0'.toNat = 48 := rfl
  simp only [digitValue]
  omega

theorem encodeChar_digit {c : Char} (h : c.isDigit = true) :
    String.utf8EncodeChar c = [digitByte (digitValue c)] := by
  simp only [Char.isDigit, Bool.and_eq_true, decide_eq_true_eq, UInt32.le_iff_toNat_le] at h
  have h0 : 48 ≤ c.toNat := h.1
  have h9 : c.toNat ≤ 57 := h.2
  have hv : c.val.toNat = c.toNat := rfl
  have hzero : '0'.toNat = 48 := rfl
  simp only [String.utf8EncodeChar, hv, digitByte, digitValue]
  rw [if_pos (by omega), show 0x30 + (c.toNat - '0'.toNat) = c.toNat by omega]

theorem flatMap_encodeChar_digits : ∀ {cs : List Char}, (∀ c ∈ cs, c.isDigit = true) →
    cs.flatMap String.utf8EncodeChar = digitsText (cs.map digitValue)
  | [], _ => rfl
  | c :: cs, h => by
      rw [List.forall_mem_cons] at h
      rw [List.flatMap_cons, encodeChar_digit h.1, flatMap_encodeChar_digits h.2]
      rfl

theorem areDigits_map {cs : List Char} (h : ∀ c ∈ cs, c.isDigit = true) :
    AreDigits (cs.map digitValue) := by
  intro d hd
  obtain ⟨c, hc, rfl⟩ := List.mem_map.1 hd
  exact digitValue_lt (h c hc)

theorem digitsValue_map (cs : List Char) : digitsValue (cs.map digitValue) = Nat.ofDigitChars 10 cs 0 := by
  rw [digitsValue, List.foldl_map]
  rfl

/-- Digits whose number fits are all taken. -/
theorem wholeDigits_eq : ∀ {ds : List Nat} {n : Nat},
    ds.foldl (fun n d => 10 * n + d) n ≤ Number.greatest →
      Number.wholeDigits n ds = (ds.foldl (fun n d => 10 * n + d) n, 0)
  | [], n, _ => rfl
  | d :: ds, n, h => by
      rw [List.foldl_cons] at h ⊢
      have hstep : n * 10 + d = 10 * n + d := by omega
      have hfits := Nat.le_trans (le_digits_foldl ds (10 * n + d)) h
      rw [Number.wholeDigits, hstep, if_pos hfits, wholeDigits_eq h]

theorem digitsValue_toDigits (n : Nat) : digitsValue ((Nat.toDigits 10 n).map digitValue) = n := by
  rw [digitsValue_map, Nat.ofDigitChars_ten_toDigits]

/-- The numeral of the digits of `n`. -/
def decimalNumeral (negative : Bool) (n : Nat) : Numeral :=
  ⟨negative, (Nat.toDigits 10 n).map digitValue, [], none⟩

theorem decimalNumeral_wellFormed (negative : Bool) (n : Nat) :
    (decimalNumeral negative n).WellFormed where
  whole := areDigits_map fun _ => Text.isDigit_of_mem_toDigits
  nonempty := by simp [decimalNumeral]
  head := by
    intro h
    rcases Nat.eq_zero_or_pos n with rfl | hn
    · rfl
    · obtain ⟨c, cs, hcs⟩ := List.exists_cons_of_ne_nil (Nat.toDigits_ne_nil (n := n) (b := 10))
      have hdigit : c.isDigit = true := Text.isDigit_of_mem_toDigits (hcs ▸ List.mem_cons_self)
      have hhead := Text.head_toDigits hn
      simp only [decimalNumeral, hcs, List.map_cons, List.head?_cons, Option.some.injEq] at h hhead
      refine absurd (congrArg some (Char.toNat_inj.1 ?_)) hhead
      have h0 : '0'.toNat = 48 := rfl
      simp only [Char.isDigit, Bool.and_eq_true, decide_eq_true_eq, UInt32.le_iff_toNat_le] at hdigit
      have hle : 48 ≤ c.toNat := hdigit.1
      simp only [digitValue] at h
      omega
  fraction := nofun
  power := nofun

theorem decimalNumeral_number? {n : Nat} (negative : Bool) (h : n ≤ Number.greatest) :
    (decimalNumeral negative n).number? = some (Number.whole negative n) := by
  have hvalue : ((Nat.toDigits 10 n).map digitValue).foldl (fun n d => 10 * n + d) 0 = n :=
    digitsValue_toDigits n
  have hwhole : Number.wholeDigits 0 ((Nat.toDigits 10 n).map digitValue) = (n, 0) := by
    rw [wholeDigits_eq (by rwa [hvalue]), hvalue]
  simp [decimalNumeral, Numeral.number?, hwhole]

theorem decimalNumeral_text (negative : Bool) (n : Nat) :
    (decimalNumeral negative n).text =
      (if negative then [Byte.minus] else []) ++
        (Nat.toDigits 10 n).flatMap String.utf8EncodeChar := by
  rw [flatMap_encodeChar_digits fun _ => Text.isDigit_of_mem_toDigits]
  cases negative <;>
    simp [decimalNumeral, Numeral.text, Numeral.signText, Numeral.fractionText, Numeral.powerText]

/-- An integer from `-2^63` up to below `2^64` is written as the integer that it is. -/
theorem numberText_decimal {n : Int} (hlow : -(2 ^ 63) ≤ n) (hhigh : n < 2 ^ 64) :
    NumberText (.integer n) (Text.Utf8.encode (Text.decimal n)) := by
  cases n with
  | ofNat m =>
      have hm : m ≤ Number.greatest := by
        simp only [Number.greatest, Int.ofNat_eq_natCast] at hhigh ⊢
        omega
      refine ⟨decimalNumeral false m, decimalNumeral_wellFormed false m, ?_, ?_⟩
      · rw [decimalNumeral_number? false hm]
        rfl
      · rw [decimalNumeral_text, Text.decimal, Text.Utf8.encode_ofList]
        rfl
  | negSucc m =>
      have hm : m + 1 ≤ 2 ^ 63 := by omega
      refine ⟨decimalNumeral true (m + 1), decimalNumeral_wellFormed true (m + 1), ?_, ?_⟩
      · rw [decimalNumeral_number? true (by simp only [Number.greatest]; omega)]
        simp only [Number.whole, Bool.not_true, Bool.false_eq_true, if_false]
        rw [if_pos ⟨Nat.succ_pos m, hm⟩]
        rfl
      · rw [decimalNumeral_text, Text.decimal, Text.Utf8.encode_ofList]
        rfl

end OData.Json
