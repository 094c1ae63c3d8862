/-
# `OData.Number.Shortest` — the fewest digits that read back

A positive double is written with the fewest decimal digits that lie nearer to it than to any
other double, and of the decimals with that many digits with the nearest one.  All comparisons
are between natural numbers: every quantity is taken times `2^1075`, of which each double and
each midpoint between two doubles is a whole multiple of the inverse.
-/
import OData.Number.Double

namespace OData

/-- A positive decimal: `d₀.d₁d₂… · 10^exponent`. -/
structure Decimal where
  /-- The digits; neither the first nor the last is zero. -/
  digits : List Char
  /-- The power of ten of the first digit. -/
  exponent : Int
deriving DecidableEq, Repr

/-- The decimal `n · 10^place`, without the zeros at the end of `n`. -/
def Decimal.ofNat (n : Nat) (place : Int) : Decimal :=
  let digits := Nat.toDigits 10 n
  ⟨(digits.reverse.dropWhile (· == '0')).reverse, place + (digits.length - 1 : Nat)⟩

namespace Double

/-- The midpoints between the double of this code and its neighbours are `below` and `above`, times
`2^1075`.  A midpoint reads back as the double of the even code. -/
def below (code : Nat) : Nat := numerator (code - 1) + numerator code

@[inherit_doc below]
def above (code : Nat) : Nat := numerator code + numerator (code + 1)

/-- The decimal `n · 10^place` reads back as the double of this code. -/
def readsBack (code n : Nat) (place : Int) : Bool :=
  let point := n * 10 ^ place.toNat * 2 ^ 1075
  let unit := 10 ^ (-place).toNat
  if code % 2 = 0 then below code * unit ≤ point && point ≤ above code * unit
  else below code * unit < point && point < above code * unit

/-- The power of ten of the first digit of the double of this code.  No positive double is below
`10^-340`. -/
def leadingPlace (code : Nat) : Int :=
  ((Nat.toDigits 10 (numerator code * 10 ^ 340 / 2 ^ 1074)).length : Int) - 341

/-- The nearest decimal of the form `n · 10^place` that reads back; of two equally near the even one. -/
def candidate? (code : Nat) (place : Int) : Option Decimal :=
  let value := numerator code * 10 ^ (-place).toNat
  let step := 10 ^ place.toNat * 2 ^ 1074
  let low := value / step
  let rest := 2 * (value % step)
  let order := if rest < step ∨ rest = step ∧ low % 2 = 0 then [low, low + 1] else [low + 1, low]
  (order.find? (readsBack code · place)).map (Decimal.ofNat · place)

/-- The shortest decimal that reads back as the double of this code, which is not zero.  Seventeen digits
are always enough. -/
def shortest (code : Nat) : Decimal :=
  let first := leadingPlace code
  ((List.range 17).findSome? fun (n : Nat) => candidate? code (first - n)).getD ⟨['0'], 0⟩

end Double

end OData
