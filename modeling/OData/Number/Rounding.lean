/-
# `OData.Number.Rounding` — the double nearest to a quotient

`nearest num den` is the double next to `num / den`, halves going to the even neighbour.  With
it a product or a quotient of doubles is one exact product or quotient of natural numbers and
one rounding.
-/
import OData.Number.Double

namespace OData.Double

/-- The quotient `num / den` to the nearest natural number, halves to the even one. -/
def roundHalfEven (num den : Nat) : Nat :=
  let q := num / den
  let r := num % den
  if 2 * r < den then q
  else if den < 2 * r then q + 1
  else q + q % 2

/-- The binary place of the last bit of `num / den` as a double, counted up from that of `2^-1074`:
the quotient of `num · 2^1074` by `den · 2^place` lies between `2^52` and `2^53`, or `place` is zero. -/
def lastPlace (num den : Nat) : Nat :=
  let guess := num.log2 - (den.log2 + 52)
  if num < den * 2 ^ (guess + 52) then guess - 1 else guess

/-- The code of the magnitude nearest to `num / den`; one past the finite codes says that the quotient
is too large for a double. -/
def nearestCode (num den : Nat) : Nat :=
  let num := num * 2 ^ 1074
  let place := lastPlace num den
  place * 2 ^ 52 + roundHalfEven num (den * 2 ^ place)

/-- The double nearest to `num / den`, with the given sign. -/
def nearest (negative : Bool) (num den : Nat) : Double :=
  ofCode negative (nearestCode num den)

/-- The double nearest to `n`. -/
def ofNat (n : Nat) : Double := nearest false n 1

/-- The product of two doubles. -/
def mul : Double → Double → Double
  | finite s a, finite t b => nearest (s != t) (numerator a * numerator b) (2 ^ 2148)
  | infinite s, finite t b | finite t b, infinite s => if b.val = 0 then nan else infinite (s != t)
  | infinite s, infinite t => infinite (s != t)
  | nan, _ | _, nan => nan

/-- The quotient of two doubles. -/
def div : Double → Double → Double
  | finite s a, finite t b =>
    if b.val = 0 then if a.val = 0 then nan else infinite (s != t)
    else nearest (s != t) (numerator a) (numerator b)
  | infinite s, finite t _ => infinite (s != t)
  | finite s _, infinite t => ofCode (s != t) 0
  | infinite _, infinite _ | nan, _ | _, nan => nan

end OData.Double
