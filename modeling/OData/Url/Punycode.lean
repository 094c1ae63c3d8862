/-
# `OData.Url.Punycode` — text outside ASCII in the letters of a host name

A label of a host name is in ASCII.  One that stands for other text holds the ASCII characters of
that text, a hyphen behind them if there are any, and then, for each of the other characters in
ascending order, the distance that leads there from the one before.  A distance counts the steps of
a walk through all code points and, for each of them, through all places of the text.  It is
written in digits of base 36, the lowest one first, each with a threshold below which it is the last.
-/
namespace OData.Url.Punycode

/-- The value of a digit: a small letter or, behind these, one of the decimal digits. -/
def digit? (c : Char) : Option Nat :=
  if c.isLower then some (c.toNat - 'a'.toNat)
  else if c.isDigit then some (26 + (c.toNat - '0'.toNat))
  else none

/-- The value below which the digit of index `i` is the last one of its number. -/
def threshold (bias i : Nat) : Nat := min 26 (max 1 (36 * (i + 1) - bias))

/-- The bias for a distance that has been scaled down. -/
def biasFrom (scaled : Nat) : Nat :=
  if 455 < scaled then 36 + biasFrom (scaled / 35) else 36 * scaled / (scaled + 38)
termination_by scaled
decreasing_by omega

/-- The bias behind a distance that has led to the insertion of a character, `size` the size of the text
with it.  The first distance says little about the next one, as it leads from ASCII to another script. -/
def nextBias (isFirst : Bool) (size distance : Nat) : Nat :=
  let scaled := if isFirst then distance / 700 else distance / 2
  biasFrom (scaled + scaled / size)

/-- How far a label has been read. -/
structure Progress where
  /-- The characters that have been placed. -/
  text : List Char
  /-- The code point that the walk has reached. -/
  codePoint : Nat
  /-- The place in the text that the walk has reached. -/
  place : Nat
  bias : Nat
  /-- How many digits of the next distance have been read. -/
  digits : Nat
  /-- What these digits amount to. -/
  distance : Nat
  /-- The weight of the digit after them. -/
  weight : Nat
deriving DecidableEq, Repr

/-- Before the first distance. -/
def Progress.start (ascii : List Char) : Progress := ⟨ascii, 0x80, 0, 72, 0, 0, 1⟩

/-- The walk over a distance that has been read to its end, and the character placed there. -/
def Progress.insert? (p : Progress) (distance : Nat) : Option Progress :=
  let size := p.text.length + 1
  let steps := p.place + distance
  let codePoint := p.codePoint + steps / size
  let place := steps % size
  if codePoint.isValidChar then
    let text := p.text.take place ++ Char.ofNat codePoint :: p.text.drop place
    some ⟨text, codePoint, place + 1, nextBias (p.place == 0) size distance, 0, 0, 1⟩
  else none

/-- One digit further. -/
def Progress.next? (p : Progress) (c : Char) : Option Progress := do
  let d ← digit? c
  let distance := p.distance + d * p.weight
  let last := threshold p.bias p.digits
  if d < last then p.insert? distance
  else some { p with digits := p.digits + 1, distance, weight := p.weight * (36 - last) }

/-- The ASCII characters of a label and its digits, which the last hyphen separates unless it comes first. -/
def splitDigits (label : List Char) : List Char × List Char :=
  let digits := (label.reverse.takeWhile (· != '-')).reverse
  let ascii := label.take (label.length - digits.length - 1)
  if ascii.isEmpty then ([], label) else (ascii, digits)

/-- The text that a label in small letters stands for. -/
def decode? (label : List Char) : Option (List Char) := do
  let (ascii, digits) := splitDigits label
  let p ← digits.foldlM Progress.next? (Progress.start ascii)
  if p.digits = 0 then some p.text else none

end OData.Url.Punycode
