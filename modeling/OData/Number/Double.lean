/-
# `OData.Number.Double` — double-precision numbers

A finite double is a sign and a *code*: its 63 low bits read as a number.  Codes ascend with the
magnitude, so the whole arithmetic is that of natural numbers.  A code `e · 2^52 + f` with
`f < 2^52` stands for `f · 2^-1074` if `e = 0` and for `(2^52 + f) · 2^(e - 1075)` otherwise.

Not a number is one value here: its payload can be neither written nor compared.
-/
import OData.Number.Power

namespace OData

/-- The codes of finite magnitudes end here: the eleven exponent bits are not all set. -/
def Double.codes : Nat := 2047 * 2 ^ 52

/-- A number in the binary format of 64 bits. -/
inductive Double where
  | nan
  | infinite (negative : Bool)
  | finite (negative : Bool) (code : Fin Double.codes)
deriving DecidableEq, Repr

namespace Double

/-- The double of an exponent pattern of eleven bits set or not, by its bits. -/
def ofBits (bits : UInt64) : Double :=
  let negative := 2 ^ 63 ≤ bits.toNat
  let code := bits.toNat % 2 ^ 63
  if h : code < codes then .finite negative ⟨code, h⟩
  else if code = codes then .infinite negative
  else .nan

/-- The bits of `d`; of a number that is none, those with the highest fraction bit set. -/
def toBits : Double → UInt64
  | nan => 0x7ff8000000000000
  | infinite negative => UInt64.ofNat (codes + if negative then 2 ^ 63 else 0)
  | finite negative code => UInt64.ofNat (code.val + if negative then 2 ^ 63 else 0)

/-- A magnitude from its code; codes past the finite ones are infinite. -/
def ofCode (negative : Bool) (code : Nat) : Double :=
  if h : code < codes then .finite negative ⟨code, h⟩ else .infinite negative

def zero : Double := .finite false ⟨0, by decide⟩

def isNaN : Double → Bool
  | nan => true
  | _ => false

def isInfinite : Double → Bool
  | infinite _ => true
  | _ => false

/-- The number with the other sign. -/
def neg : Double → Double
  | nan => nan
  | infinite negative => infinite !negative
  | finite negative code => finite (!negative) code

/-- Equality of numbers: nothing equals what is not a number, and the two zeros are equal. -/
def eq : Double → Double → Bool
  | infinite s, infinite t => s == t
  | finite s a, finite t b => a == b && (s == t || a.val == 0)
  | _, _ => false

/-- The significand of a finite magnitude. -/
def significand (code : Nat) : Nat :=
  if code < 2 ^ 52 then code else 2 ^ 52 + code % 2 ^ 52

/-- How many binary places the significand of a finite magnitude is above the least place, which
is that of `2^-1074`. -/
def shift (code : Nat) : Nat := code / 2 ^ 52 - 1

/-- A finite magnitude is `numerator code / 2^1074`. -/
def numerator (code : Nat) : Nat := significand code * 2 ^ shift code

theorem eq_comm (a b : Double) : eq a b = eq b a := by
  cases a with
  | nan => cases b <;> rfl
  | infinite s => cases b <;> simp [eq, Bool.beq_comm]
  | finite s a =>
    cases b with
    | finite t b =>
      by_cases h : a = b
      · simp [eq, h, Bool.beq_comm (a := s)]
      · simp [eq, beq_eq_false_iff_ne.2 h, beq_eq_false_iff_ne.2 (Ne.symm h)]
    | _ => rfl

theorem eq_self_iff (a : Double) : eq a a = true ↔ a.isNaN = false := by
  cases a <;> simp [eq, isNaN]

theorem eq_trans {a b c : Double} (hab : eq a b = true) (hbc : eq b c = true) : eq a c = true := by
  cases a <;> cases b <;> cases c <;> simp only [eq, Bool.and_eq_true, Bool.or_eq_true,
    beq_iff_eq, Bool.false_eq_true] at hab hbc ⊢
  · exact hab.trans hbc
  · obtain ⟨rfl, hs⟩ := hab
    obtain ⟨rfl, ht⟩ := hbc
    refine ⟨rfl, ?_⟩
    rcases hs with rfl | hs
    · exact ht
    · exact .inr hs

end Double

end OData
