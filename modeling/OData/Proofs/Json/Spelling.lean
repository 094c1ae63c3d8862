/-
# `OData.Proofs.Json.Spelling` — which texts are JSON, and what they say

The grammar of JSON texts over bytes, said without a reader: `JsonText bytes tree` holds if `bytes`
is one value with blanks around it and `tree` is that value, with the members of its objects in
order and repeated as often as they stand there, and with names and strings free of escapes.

A tree has many texts.  What varies is named apart:

| | |
| :-- | :-- |
| `Piece c bytes` | the ways to write a character in a string: itself, a letter behind a backslash, its code, or a surrogate pair |
| `Numeral` | a number as it is written, digit by digit; `Numeral.number?` is the number it stands for, and none if that is beyond the range of doubles |
| `Lead first bytes` | what stands in front of a part of a container: blanks, and a comma unless the part is the first |

The limits of the reader other than that on depth are part of the grammar: text is UTF-8, a
surrogate is one of a pair, and numbers are in range.  Depth is `Tree.depth`, a number of its own.
-/
import OData.Json.Scan.Container
import OData.Proofs.Json.Reading
import OData.Proofs.Json.Trees

namespace OData.Json

open Scan

/-! ## Strings -/

/-- The number that four hexadecimal digits say. -/
def hexCode? (a b d e : UInt8) : Option Nat := do
  return ((← Byte.hexDigit? a) * 0x1000 + (← Byte.hexDigit? b) * 0x100 +
    (← Byte.hexDigit? d) * 0x10 + (← Byte.hexDigit? e))

/-- An escape by code. -/
def codeText (a b d e : UInt8) : List UInt8 := [Byte.backslash, Byte.smallU, a, b, d, e]

/-- The character of a surrogate pair. -/
def pairChar (n m : Nat) : Char :=
  Char.ofNat ((n - 0xd800) * 0x400 + (m - 0xdc00) + 0x10000)

/-- `bytes` write the character inside a string. -/
inductive Piece : Char → List UInt8 → Prop
  | plain {c : Char} (hc : 0x20 ≤ c.toNat) (hquote : c ≠ '"') (hslash : c ≠ '\\') :
      Piece c (String.utf8EncodeChar c)
  | letter {b e : UInt8} (h : escapedByte? b = some e) :
      Piece (Char.ofNat e.toNat) [Byte.backslash, b]
  | code {a b d e : UInt8} {n : Nat} (h : hexCode? a b d e = some n)
      (hlead : isLeadingSurrogate n = false) (htrail : isTrailingSurrogate n = false) :
      Piece (Char.ofNat n) (codeText a b d e)
  | pair {a b d e a' b' d' e' : UInt8} {n m : Nat} (h : hexCode? a b d e = some n)
      (h' : hexCode? a' b' d' e' = some m) (hlead : isLeadingSurrogate n = true)
      (htrail : isTrailingSurrogate m = true) :
      Piece (pairChar n m) (codeText a b d e ++ codeText a' b' d' e')

/-- `bytes` write the characters inside a string. -/
inductive Inside : List Char → List UInt8 → Prop
  | nil : Inside [] []
  | cons {c : Char} {cs : List Char} {piece bytes : List UInt8} :
      Piece c piece → Inside cs bytes → Inside (c :: cs) (piece ++ bytes)

/-- `text` writes the string, its marks included. -/
def StringText (s : String) (text : List UInt8) : Prop :=
  ∃ inside, Inside s.toList inside ∧ text = Byte.quote :: (inside ++ [Byte.quote])

/-! ## Numbers -/

/-- The byte of a digit. -/
def digitByte (d : Nat) : UInt8 := UInt8.ofNat (0x30 + d)

/-- Digits as they are written. -/
def digitsText (ds : List Nat) : List UInt8 := ds.map digitByte

/-- Every one of them is a decimal digit. -/
def AreDigits (ds : List Nat) : Prop := ∀ d ∈ ds, d < 10

/-- The number that digits say. -/
def digitsValue (ds : List Nat) : Nat := ds.foldl (fun n d => 10 * n + d) 0

/-- The exponent of a number as it is written: its letter, its sign if it has one, and its digits. -/
structure Power where
  letter : UInt8
  sign : Option UInt8
  digits : List Nat

namespace Power

structure WellFormed (p : Power) : Prop where
  letter : p.letter = Byte.smallE ∨ p.letter = Byte.bigE
  sign : p.sign = none ∨ p.sign = some Byte.plus ∨ p.sign = some Byte.minus
  digits : AreDigits p.digits
  nonempty : p.digits ≠ []

def text (p : Power) : List UInt8 := p.letter :: (p.sign.toList ++ digitsText p.digits)

/-- It makes the number smaller. -/
def down (p : Power) : Bool := p.sign == some Byte.minus

/-- The number with the given significand at the given place.  An exponent of `2^31` or more leads out of
the range of doubles, whatever the place. -/
def number? (p : Power) (negative : Bool) (significand : Nat) (place : Int) : Option Number :=
  let n := digitsValue p.digits
  if n < 2 ^ 31 then
    (Number.scaled negative significand (if p.down then place - n else place + n)).map .double
  else if significand ≠ 0 ∧ !p.down then none
  else some (.double (if negative then Double.zero.neg else .zero))

end Power

/-- A number as it is written.  There is a point if there are digits behind it. -/
structure Numeral where
  negative : Bool
  whole : List Nat
  fraction : List Nat
  power : Option Power

namespace Numeral

structure WellFormed (l : Numeral) : Prop where
  whole : AreDigits l.whole
  nonempty : l.whole ≠ []
  /-- No zero in front of other digits. -/
  head : l.whole.head? = some 0 → l.whole = [0]
  fraction : AreDigits l.fraction
  power : ∀ p ∈ l.power, p.WellFormed

def signText (l : Numeral) : List UInt8 := if l.negative then [Byte.minus] else []

def fractionText (l : Numeral) : List UInt8 :=
  if l.fraction = [] then [] else Byte.point :: digitsText l.fraction

def powerText (l : Numeral) : List UInt8 := (l.power.map Power.text).getD []

def text (l : Numeral) : List UInt8 :=
  l.signText ++ (digitsText l.whole ++ (l.fractionText ++ l.powerText))

/-- The number behind the whole digits, `left` of which did not fit. -/
def behind? (l : Numeral) (significand left : Nat) : Option Number :=
  let (significand, taken) := Number.fractionDigits significand l.fraction
  match l.power with
  | some p => p.number? l.negative significand (left - taken)
  | none => (Number.scaled l.negative significand (left - taken)).map .double

/-- The number that is meant; none if it is out of range. -/
def number? (l : Numeral) : Option Number :=
  let (significand, left) := Number.wholeDigits 0 l.whole
  if l.fraction = [] ∧ l.power.isNone ∧ left = 0 then some (Number.whole l.negative significand)
  else l.behind? significand left

end Numeral

/-- `text` writes the number. -/
def NumberText (n : Number) (text : List UInt8) : Prop :=
  ∃ l : Numeral, l.WellFormed ∧ l.number? = some n ∧ text = l.text

/-- A byte with which a number would go on. -/
def extendsNumber (b : UInt8) : Bool :=
  Byte.isDigit b || b == Byte.point || b == Byte.smallE || b == Byte.bigE

/-! ## Values -/

/-- What stands in front of a part of a container. -/
def Lead (first : Bool) (lead : List UInt8) : Prop :=
  if first then Blank lead
  else ∃ gap gap', Blank gap ∧ Blank gap' ∧ lead = gap ++ Byte.comma :: gap'

namespace Tree

mutual

/-- `text` writes the value, with no blanks around it. -/
def SpelledBy : Tree → List UInt8 → Prop
  | null, text => text = Text.Utf8.encode "null"
  | bool true, text => text = Text.Utf8.encode "true"
  | bool false, text => text = Text.Utf8.encode "false"
  | integer n, text => NumberText (.integer n) text
  | double d, text => NumberText (.double d) text
  | string s, text => StringText s text
  | list items, text =>
    ∃ inside, ItemsSpelledBy true items inside ∧
      text = Byte.openBracket :: (inside ++ [Byte.closeBracket])
  | object members, text =>
    ∃ inside, MembersSpelledBy true members inside ∧
      text = Byte.openBrace :: (inside ++ [Byte.closeBrace])

/-- `inside` writes the items that are left of a list, up to its closing bracket. -/
def ItemsSpelledBy (first : Bool) : List Tree → List UInt8 → Prop
  | [], inside => Blank inside
  | item :: items, inside =>
    ∃ lead text more, Lead first lead ∧ item.SpelledBy text ∧ ItemsSpelledBy false items more ∧
      inside = lead ++ (text ++ more)

/-- `inside` writes the members that are left of an object, up to its closing brace. -/
def MembersSpelledBy (first : Bool) : List (String × Tree) → List UInt8 → Prop
  | [], inside => Blank inside
  | (name, value) :: members, inside =>
    ∃ lead title gap gap' text more, Lead first lead ∧ StringText name title ∧ Blank gap ∧
      Blank gap' ∧ value.SpelledBy text ∧ MembersSpelledBy false members more ∧
      inside = lead ++ (title ++ (gap ++ Byte.colon :: (gap' ++ (text ++ more))))

end

end Tree

/-- The text `bytes` is JSON for the value `tree`. -/
def JsonText (bytes : List UInt8) (tree : Tree) : Prop :=
  ∃ gap text gap', Blank gap ∧ Blank gap' ∧ tree.SpelledBy text ∧ bytes = gap ++ (text ++ gap')

end OData.Json
