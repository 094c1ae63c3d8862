/-
# `OData.Text.Utf8` — text as bytes

`encode` writes text in UTF-8.  `decode` reads it back and, where the bytes are not UTF-8, says
how many bytes in front of the fault are: no overlong form, no surrogate and nothing beyond
U+10FFFF is accepted.
-/
namespace OData.Text.Utf8

/-- The bytes of `text`. -/
def encode (text : String) : List UInt8 := text.toList.flatMap String.utf8EncodeChar

/-- The low six bits of a continuation byte. -/
def continuation? (b : UInt8) : Option Nat :=
  if 0x80 ≤ b ∧ b ≤ 0xbf then some (b.toNat - 0x80) else none

/-- The character of code `n`, which must be at least `least` (no overlong form) and a scalar value. -/
def scalar? (least n : Nat) : Option Char :=
  if least ≤ n ∧ n.isValidChar then some (Char.ofNat n) else none

/-- The first character of `bytes` and the bytes after it. -/
def decodeChar? : List UInt8 → Option (Char × List UInt8)
  | [] => none
  | a :: rest =>
    if a < 0x80 then some (Char.ofNat a.toNat, rest)
    else if a < 0xc0 then none
    else if a < 0xe0 then
      match rest with
      | b :: rest => do
        let c ← scalar? 0x80 ((a.toNat - 0xc0) * 0x40 + (← continuation? b))
        return (c, rest)
      | _ => none
    else if a < 0xf0 then
      match rest with
      | b :: c :: rest => do
        let hi := (a.toNat - 0xe0) * 0x1000 + (← continuation? b) * 0x40
        let ch ← scalar? 0x800 (hi + (← continuation? c))
        return (ch, rest)
      | _ => none
    else if a < 0xf8 then
      match rest with
      | b :: c :: d :: rest => do
        let hi := (a.toNat - 0xf0) * 0x40000 + (← continuation? b) * 0x1000
        let ch ← scalar? 0x10000 (hi + (← continuation? c) * 0x40 + (← continuation? d))
        return (ch, rest)
      | _ => none
    else none

/-- What a run of bytes says as UTF-8. -/
inductive Decoded where
  /-- All of it is text. -/
  | text (chars : List Char)
  /-- So many bytes are text, and what follows them is not the start of a character. -/
  | faulty (valid : Nat)
deriving DecidableEq, Repr

/-- The same bytes with the character `c` in front of them. -/
def Decoded.cons (c : Char) : Decoded → Decoded
  | text chars => text (c :: chars)
  | faulty valid => faulty (c.utf8Size + valid)

/-- Decodes `bytes` as at most `fuel` characters. -/
def decodeFrom : (fuel : Nat) → (bytes : List UInt8) → Decoded
  | _, [] => .text []
  | 0, _ :: _ => .faulty 0
  | fuel + 1, bytes@(_ :: _) =>
    match decodeChar? bytes with
    | some (c, rest) => (decodeFrom fuel rest).cons c
    | none => .faulty 0

/-- The bytes as text.  Each character takes a byte at least, so the fuel suffices. -/
def decode (bytes : List UInt8) : Decoded := decodeFrom bytes.length bytes

/-- The bytes as text, what is not UTF-8 being refused. -/
def string? (bytes : List UInt8) : Option String :=
  match decode bytes with
  | .text cs => some (String.ofList cs)
  | .faulty _ => none

end OData.Text.Utf8
