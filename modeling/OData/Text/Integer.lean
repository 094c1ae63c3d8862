/-
# `OData.Text.Integer` — integers as decimal text

`decimal n` is the canonical text of an integer: a minus sign if it is negative and the digits
without leading zeros.  `integer?` reads more than that: a plus sign and leading zeros too.  A
text is canonical when it is the decimal form of what it reads as.
-/
import OData.Number.Power

namespace OData.Text

/-- The canonical decimal text of `n`. -/
def decimal (n : Int) : String :=
  match n with
  | .ofNat m => String.ofList (Nat.toDigits 10 m)
  | .negSucc m => String.ofList ('-' :: Nat.toDigits 10 (m + 1))

/-- The number that a nonempty run of ASCII digits spells. -/
def natural? (cs : List Char) : Option Nat :=
  if cs ≠ [] ∧ cs.all Char.isDigit then
    some (cs.foldl (fun n c => 10 * n + (c.toNat - '0'.toNat)) 0)
  else none

/-- The integer that an optional sign and a nonempty run of ASCII digits spell. -/
def integer? : List Char → Option Int
  | '-' :: cs => (natural? cs).map fun n => -(n : Int)
  | '+' :: cs => (natural? cs).map Int.ofNat
  | cs => (natural? cs).map Int.ofNat

/-- The integer `n` as a signed 64-bit integer, if it is in the range. -/
def int64OfInt? (n : Int) : Option Int64 :=
  if -(2 ^ 63) ≤ n ∧ n < 2 ^ 63 then some (Int64.ofInt n) else none

/-- The signed 64-bit integer that `text` spells. -/
def int64? (text : String) : Option Int64 := integer? text.toList >>= int64OfInt?

end OData.Text
