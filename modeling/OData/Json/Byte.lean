/-
# `OData.Json.Byte` — the bytes that JSON gives a meaning

Names for the ASCII characters of the grammar, to be matched against.
-/
namespace OData.Json.Byte

@[match_pattern] abbrev tab : UInt8 := 0x09
@[match_pattern] abbrev lineFeed : UInt8 := 0x0a
@[match_pattern] abbrev formFeed : UInt8 := 0x0c
@[match_pattern] abbrev carriageReturn : UInt8 := 0x0d
@[match_pattern] abbrev backspace : UInt8 := 0x08
@[match_pattern] abbrev space : UInt8 := 0x20
@[match_pattern] abbrev quote : UInt8 := 0x22
@[match_pattern] abbrev plus : UInt8 := 0x2b
@[match_pattern] abbrev comma : UInt8 := 0x2c
@[match_pattern] abbrev minus : UInt8 := 0x2d
@[match_pattern] abbrev point : UInt8 := 0x2e
@[match_pattern] abbrev slash : UInt8 := 0x2f
@[match_pattern] abbrev zero : UInt8 := 0x30
@[match_pattern] abbrev colon : UInt8 := 0x3a
@[match_pattern] abbrev bigE : UInt8 := 0x45
@[match_pattern] abbrev openBracket : UInt8 := 0x5b
@[match_pattern] abbrev backslash : UInt8 := 0x5c
@[match_pattern] abbrev closeBracket : UInt8 := 0x5d
@[match_pattern] abbrev smallB : UInt8 := 0x62
@[match_pattern] abbrev smallE : UInt8 := 0x65
@[match_pattern] abbrev smallF : UInt8 := 0x66
@[match_pattern] abbrev smallN : UInt8 := 0x6e
@[match_pattern] abbrev smallR : UInt8 := 0x72
@[match_pattern] abbrev smallT : UInt8 := 0x74
@[match_pattern] abbrev smallU : UInt8 := 0x75
@[match_pattern] abbrev openBrace : UInt8 := 0x7b
@[match_pattern] abbrev closeBrace : UInt8 := 0x7d

/-- The blanks of JSON. -/
def isSpace : UInt8 → Bool
  | space | tab | lineFeed | carriageReturn => true
  | _ => false

/-- The value of an ASCII digit. -/
def digit? (b : UInt8) : Option Nat :=
  if zero ≤ b ∧ b ≤ 0x39 then some (b.toNat - zero.toNat) else none

def isDigit (b : UInt8) : Bool := (digit? b).isSome

/-- The value of a hexadecimal digit. -/
def hexDigit? (b : UInt8) : Option Nat :=
  if zero ≤ b ∧ b ≤ 0x39 then some (b.toNat - zero.toNat)
  else if 0x61 ≤ b ∧ b ≤ 0x66 then some (b.toNat - 0x61 + 10)
  else if 0x41 ≤ b ∧ b ≤ 0x46 then some (b.toNat - 0x41 + 10)
  else none

end OData.Json.Byte
