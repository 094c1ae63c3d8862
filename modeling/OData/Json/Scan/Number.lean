/-
# `OData.Json.Scan.Number` — reading numbers

Whole numbers from `-2^63` up to below `2^64` are read exactly, all others as doubles.  A double
is made from at most as many leading digits as fit in 64 bits: their value, rounded, is multiplied
or divided by a power of ten, and the result rounded again.  So the last bit of a long number is
not always the nearest one.
-/
import OData.Json.Scan
import OData.Number.Rounding

namespace OData.Json

/-- A number of a JSON text. -/
inductive Number where
  /-- A whole number from `-2^63` up to below `2^64`, minus zero excepted. -/
  | integer (n : Int)
  | double (d : Double)
deriving DecidableEq, Repr

def Number.found : Number → Found
  | integer n => .integer n
  | double d => .double d

namespace Number

/-- The greatest significand. -/
def greatest : Nat := 2 ^ 64 - 1

/-- Digits in front of the point: as many as fit behind `significand`, and the number of those left. -/
def wholeDigits (significand : Nat) : List Nat → Nat × Nat
  | [] => (significand, 0)
  | d :: ds =>
    if significand * 10 + d ≤ greatest then wholeDigits (significand * 10 + d) ds
    else (significand, ds.length + 1)

/-- Digits behind the point: as many as fit behind `significand`, and the number of those taken. -/
def fractionDigits (significand : Nat) : List Nat → Nat × Nat
  | [] => (significand, 0)
  | d :: ds =>
    if significand * 10 + d ≤ greatest then
      let (n, taken) := fractionDigits (significand * 10 + d) ds
      (n, taken + 1)
    else (significand, 0)

/-- The double nearest to a power of ten. -/
def powerOfTen (n : Nat) : Double := .ofNat (10 ^ n)

/-- The product `d · 10^exponent` with a rounding at every step; none if it is too large.  A step is at most
`10^308`, the greatest power of ten among doubles. -/
def scale (d : Double) (exponent : Int) : Option Double :=
  if exponent.natAbs ≤ 308 then
    if 0 ≤ exponent then
      let product := d.mul (powerOfTen exponent.natAbs)
      if product.isInfinite then none else some product
    else some (d.div (powerOfTen exponent.natAbs))
  else if d.eq .zero then some d
  else if 0 ≤ exponent then none
  else scale (d.div (powerOfTen 308)) (exponent + 308)
termination_by exponent.natAbs
decreasing_by omega

/-- The double that `significand · 10^exponent` reads as, with the given sign. -/
def scaled (negative : Bool) (significand : Nat) (exponent : Int) : Option Double :=
  (scale (.ofNat significand) exponent).map fun d => if negative then d.neg else d

/-- The number of a text without point and exponent, whose digits all fit. -/
def whole (negative : Bool) (significand : Nat) : Number :=
  if !negative then .integer significand
  else if 0 < significand ∧ significand ≤ 2 ^ 63 then .integer (-significand)
  else .double (Double.ofNat significand).neg

end Number

namespace Scan

open Number

variable {ρ : Type}

/-- The run of digits that starts here. -/
def digits : Scan ρ (List Nat) := do
  return (← takeWhile Byte.isDigit).filterMap Byte.digit?

/-- The double of a significand and an exponent that has been passed. -/
def scaledHere (negative : Bool) (significand : Nat) (exponent : Int) : Scan ρ Number :=
  match scaled negative significand exponent with
  | some d => pure (.double d)
  | none => flawHere .numberOutOfRange

/-- Passes the sign of an exponent: is it negative? -/
def exponentSign : Scan ρ Bool := do
  match ← peek with
  | some Byte.plus => advance; pure false
  | some Byte.minus => advance; pure true
  | _ => pure false

/-- The value of an exponent behind its first digits, of value `n`; none, behind the digit that makes it
so, if it is `2^31` or more. -/
def exponentDigits : (fuel : Nat) → (n : Nat) → Scan ρ (Option Nat)
  | 0, n => pure (some n)
  | fuel + 1, n => do
    match (← peek) >>= Byte.digit? with
    | none => pure (some n)
    | some d =>
      advance
      if 10 * n + d < 2 ^ 31 then exponentDigits fuel (10 * n + d) else pure none

/-- The exponent whose letter comes next, and the number with it. -/
def exponent (negative : Bool) (significand : Nat) (place : Int) : Scan ρ Number := do
  advance
  let down ← exponentSign
  match ← next with
  | none => flawHere .endInValue
  | some b =>
    match Byte.digit? b with
    | none => flawHere .badNumber
    | some d =>
      match ← fun c => exponentDigits c.rest.length d c with
      | some n => scaledHere negative significand (if down then place - n else place + n)
      | none =>
        if significand ≠ 0 ∧ !down then flawHere .numberOutOfRange
        else do
          let _ ← digits
          pure (.double (if negative then Double.zero.neg else .zero))

/-- The exponent, if one comes next, and the number. -/
def exponent? (negative : Bool) (significand : Nat) (place : Int) : Scan ρ Number := do
  match ← peek with
  | some Byte.smallE | some Byte.bigE => exponent negative significand place
  | _ => scaledHere negative significand place

/-- The fraction whose point comes next, and the number; `place` digits in front of the point did not
fit. -/
def fraction (negative : Bool) (significand place : Nat) : Scan ρ Number := do
  advance
  let ds ← digits
  if ds.isEmpty then
    match ← peek with
    | some _ => flawNext .badNumber
    | none => flawNext .endInValue
  else
    let (significand, taken) := fractionDigits significand ds
    exponent? negative significand (place - taken)

/-- The number behind its whole digits. -/
def numberRest (negative : Bool) (ds : List Nat) : Scan ρ Number := do
  let (significand, left) := wholeDigits 0 ds
  match ← peek with
  | some Byte.point => fraction negative significand left
  | some Byte.smallE | some Byte.bigE => exponent negative significand left
  | _ =>
    if left = 0 then pure (whole negative significand)
    else scaledHere negative significand left

/-- The number whose first digit comes next, its sign having been passed. -/
def number (negative : Bool) : Scan ρ Number := do
  match ← next with
  | none => flawHere .endInValue
  | some b =>
    match Byte.digit? b with
    | none => flawHere .badNumber
    | some 0 =>
      match (← peek) >>= Byte.digit? with
      | some _ => flawNext .badNumber
      | none => numberRest negative [0]
    | some d => numberRest negative (d :: (← digits))

/-- Passes an exponent whose letter comes next. -/
def skipExponent : Scan ρ Unit := do
  advance
  let _ ← exponentSign
  match (← next) >>= Byte.digit? with
  | none => flawHere .badNumber
  | some _ => let _ ← digits

/-- Passes the exponent, if one comes next. -/
def skipExponent? : Scan ρ Unit := do
  match ← peek with
  | some Byte.smallE | some Byte.bigE => skipExponent
  | _ => pure ()

/-- Passes a fraction and an exponent, if they come next. -/
def skipNumberRest : Scan ρ Unit := do
  match ← peek with
  | some Byte.point =>
    advance
    if (← digits).isEmpty then flawNext .badNumber else skipExponent?
  | _ => skipExponent?

/-- Passes the number whose first digit comes next.  Its size does not matter. -/
def skipNumber : Scan ρ Unit := do
  match (← next) >>= Byte.digit? with
  | none => flawHere .badNumber
  | some 0 =>
    match (← peek) >>= Byte.digit? with
    | some _ => flawNext .badNumber
    | none => skipNumberRest
  | some _ =>
    let _ ← digits
    skipNumberRest

end Scan

end OData.Json
