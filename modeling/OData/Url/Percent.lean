/-
# `OData.Url.Percent` — percent-encoding

A part of a URL may not hold every character; which ones are encoded depends on the part.  A
character outside ASCII always is, byte by byte.
-/
import OData.Text.Utf8

namespace OData.Url

/-- An uppercase hexadecimal digit. -/
def upperHexDigit (n : Nat) : Char := (Nat.digitChar n).toUpper

/-- A byte as a percent sign and two hexadecimal digits. -/
def percentByte (b : UInt8) : List Char :=
  ['%', upperHexDigit (b.toNat / 16), upperHexDigit (b.toNat % 16)]

/-- The characters of `cs`, those in `set` and those outside ASCII encoded. -/
def percentEncode (set : Char → Bool) (cs : List Char) : List Char :=
  cs.flatMap fun c =>
    if 0x80 ≤ c.toNat || set c then (String.utf8EncodeChar c).flatMap percentByte else [c]

/-- What is encoded everywhere. -/
def isControl (c : Char) : Bool := c.toNat < 0x20 || c.toNat == 0x7f

/-- What is encoded in a fragment. -/
def inFragmentSet (c : Char) : Bool := isControl c || " \"<>\x60".toList.contains c

/-- What is encoded in a path. -/
def inPathSet (c : Char) : Bool := inFragmentSet c || "#?\x7b\x7d".toList.contains c

/-- What is encoded in a user name or a password. -/
def inUserSet (c : Char) : Bool := inPathSet c || "/:;=@[\\]^|".toList.contains c

/-- What is encoded in a query. -/
def inQuerySet (c : Char) : Bool := isControl c || " \"#<>".toList.contains c

/-- What is encoded in a query of one of the schemes of the web. -/
def inSpecialQuerySet (c : Char) : Bool := inQuerySet c || c == '\''

/-- The value of a hexadecimal digit. -/
def percentDigit? (b : UInt8) : Option UInt8 :=
  if 0x30 ≤ b ∧ b ≤ 0x39 then some (b - 0x30)
  else if 0x61 ≤ b ∧ b ≤ 0x66 then some (b - 0x61 + 10)
  else if 0x41 ≤ b ∧ b ≤ 0x46 then some (b - 0x41 + 10)
  else none

/-- The bytes of a text in which each percent sign with two hexadecimal digits stands for a byte. -/
def percentDecode : List UInt8 → List UInt8
  | [] => []
  | b :: rest =>
    if b = 0x25 then
      match rest with
      | h :: l :: after =>
        match percentDigit? h, percentDigit? l with
        | some h, some l => (16 * h + l) :: percentDecode after
        | _, _ => b :: percentDecode (h :: l :: after)
      | rest => b :: percentDecode rest
    else b :: percentDecode rest

end OData.Url
