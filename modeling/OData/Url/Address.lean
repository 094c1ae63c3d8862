/-
# `OData.Url.Address` — numeric hosts

A host may be an address of four bytes or of eight pieces of 16 bits.  Both are read in more ways
than they are written: bytes may be joined into one number and be octal or hexadecimal, zeros may
be left out or not.
-/
import OData.Text.Ascii
import OData.Text.Integer
import OData.Text.Split

namespace OData.Url

open OData.Text

/-- The number that digits of a base spell, if all of them are such digits. -/
def digitsValue? (base : Nat) (cs : List Char) : Option Nat :=
  cs.foldlM (fun n c => do
    let d ← hexDigit? c
    if d < base then some (base * n + d) else none) 0

/-- A part of an address of four bytes: decimal, octal behind a zero or hexadecimal behind `0x`. -/
def addressNumber? : List Char → Option Nat
  | [] => none
  | '0' :: 'x' :: cs | '0' :: 'X' :: cs => digitsValue? 16 cs
  | '0' :: c :: cs => digitsValue? 8 (c :: cs)
  | cs => digitsValue? 10 cs

/-- The parts of a host name between its dots, one dot at the end not counting. -/
def hostParts (name : List Char) : List (List Char) :=
  let parts := splitOn '.' name
  if parts.length ≠ 1 ∧ parts.getLast? = some [] then parts.dropLast else parts

/-- A host name whose last part is a number can only be an address. -/
def endsInNumber (name : List Char) : Bool :=
  match (hostParts name).getLast? with
  | none | some [] => false
  | some part => part.all Char.isDigit || (addressNumber? part).isSome

/-- The address of four bytes that the numbers of a host name spell: each but the last is a byte, and the
last one fills the bytes that are left. -/
def ipv4OfNumbers? (numbers : List Nat) : Option UInt32 := do
  let last ← numbers.getLast?
  let bytes := numbers.dropLast
  if bytes.length ≤ 3 ∧ bytes.all (· < 256) ∧ last < 256 ^ (4 - bytes.length) then
    some (UInt32.ofNat (bytes.foldl (fun n b => 256 * n + b) 0 * 256 ^ (4 - bytes.length) + last))
  else none

/-- The address of four bytes that a host name spells. -/
def parseIpv4? (name : List Char) : Option UInt32 :=
  (hostParts name).mapM addressNumber? >>= ipv4OfNumbers?

/-- The bytes of an address in decimal, with dots. -/
def ipv4Text (a : UInt32) : String :=
  let byte (i : Nat) : String := toString (a.toNat / 256 ^ i % 256)
  s!"{byte 3}.{byte 2}.{byte 1}.{byte 0}"

/-- A byte in decimal, without leading zeros. -/
def decimalByte? (cs : List Char) : Option Nat := do
  let n ← natural? cs
  if n < 256 ∧ (cs.head? ≠ some '0' ∨ cs.length = 1) then some n else none

/-- The last two pieces of an address, written as four bytes. -/
def bytePieces? (cs : List Char) : Option (List Nat) := do
  match ← (splitOn '.' cs).mapM decimalByte? with
  | [a, b, c, d] => some [256 * a + b, 256 * c + d]
  | _ => none

/-- The pieces behind those in `done`, which are in reverse order.  Two colons in a row are a piece of zero,
`gap` the number of pieces up to it; there may be one such place.  A step takes a character, so that the
length of the text suffices as `fuel`. -/
def ipv6From : (fuel : Nat) → (done : List Nat) → (gap : Option Nat) → List Char →
    Option (List Nat × Option Nat)
  | _, done, gap, [] => some (done.reverse, gap)
  | 0, _, _, _ => none
  | fuel + 1, done, gap, cs@(c :: rest) =>
    if done.length = 8 then none
    else if c = ':' then
      if gap.isSome then none else ipv6From fuel (0 :: done) (some (done.length + 1)) rest
    else
      let digits := (cs.take 4).takeWhile fun c => (hexDigit? c).isSome
      match digitsValue? 16 digits, cs.drop digits.length with
      | none, _ => none
      | some n, [] => some ((n :: done).reverse, gap)
      | some _, '.' :: _ =>
        if digits.isEmpty ∨ 6 < done.length then none
        else do
          let pieces ← bytePieces? cs
          some (done.reverse ++ pieces, gap)
      | some n, ':' :: rest =>
        if digits.isEmpty ∨ rest.isEmpty then none else ipv6From fuel (n :: done) gap rest
      | some _, _ => none

/-- The pieces of an address, its gap filled with zeros. -/
def fillGap : List Nat × Option Nat → Option (List Nat)
  | (pieces, some gap) =>
    if pieces.length ≤ 8 then
      some (pieces.take gap ++ List.replicate (8 - pieces.length) 0 ++ pieces.drop gap)
    else none
  | (pieces, none) => if pieces.length = 8 then some pieces else none

/-- The address of eight pieces that a text spells. -/
def parseIpv6? (cs : List Char) : Option (List Nat) :=
  match cs with
  | ':' :: ':' :: rest => ipv6From rest.length [0] (some 1) rest >>= fillGap
  | ':' :: _ | [] | [_] => none
  | cs => ipv6From cs.length [] none cs >>= fillGap

/-- How many pieces from `i` on are zero. -/
def zerosAt (pieces : List Nat) (i : Nat) : Nat := ((pieces.drop i).takeWhile (· == 0)).length

/-- Where the longest run of zeros begins, the first of several. -/
def longestZeros (pieces : List Nat) : Nat :=
  (List.range pieces.length).foldl
    (fun best i => if zerosAt pieces best < zerosAt pieces i then i else best) 0

/-- Pieces in hexadecimal, with colons. -/
def piecesText (pieces : List Nat) : String :=
  ":".intercalate (pieces.map fun n => String.ofList (hex n))

/-- The text of an address, in which two colons stand for the longest run of zeros. -/
def ipv6Text (pieces : List Nat) : String :=
  let i := longestZeros pieces
  let n := zerosAt pieces i
  if 2 ≤ n then piecesText (pieces.take i) ++ "::" ++ piecesText (pieces.drop (i + n))
  else piecesText pieces

end OData.Url
