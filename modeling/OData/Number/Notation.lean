/-
# `OData.Number.Notation` — the text of a decimal

Where positional notation ends is a decision of the format, and so a value: `Notation`.  Its one
value here is `jsonNumber`, the way doubles are written in payloads and in messages.
-/
import OData.Number.Shortest

namespace OData

/-- A way to write decimals: positional for exponents from `least` to `greatest`, and otherwise
one digit, a point if more follow, and a signed power of ten. -/
structure Notation where
  least : Int
  greatest : Int

namespace Notation

/-- Numbers from `0.00001` up to below `10^16` are positional. -/
def jsonNumber : Notation := ⟨-5, 15⟩

/-- Positional notation, always with a fraction. -/
def positional (d : Decimal) : List Char :=
  let whole := d.exponent.toNat + 1
  if d.exponent < 0 then
    ['0', '.'] ++ List.replicate ((-d.exponent).toNat - 1) '0' ++ d.digits
  else if d.digits.length ≤ whole then
    d.digits ++ List.replicate (whole - d.digits.length) '0' ++ ['.', '0']
  else d.digits.take whole ++ '.' :: d.digits.drop whole

/-- One digit before the point and the sign of the power always written. -/
def scientific (d : Decimal) : List Char :=
  let power := (if d.exponent < 0 then '-' else '+') :: Nat.toDigits 10 d.exponent.natAbs
  match d.digits with
  | [] => []
  | [first] => first :: 'e' :: power
  | first :: rest => first :: '.' :: rest ++ 'e' :: power

def magnitude (style : Notation) (d : Decimal) : List Char :=
  if style.least ≤ d.exponent ∧ d.exponent ≤ style.greatest then positional d else scientific d

/-- The text of a double; one that is not finite has none. -/
def text? (style : Notation) : Double → Option String
  | .finite negative code =>
    let sign := if negative then ['-'] else []
    let digits := if code.val = 0 then ['0', '.', '0'] else style.magnitude (Double.shortest code)
    some (String.ofList (sign ++ digits))
  | _ => none

end Notation

end OData
