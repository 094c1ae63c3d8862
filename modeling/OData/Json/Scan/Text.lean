/-
# `OData.Json.Scan.Text` — reading strings

The cursor stands behind the opening quotation mark.  The bytes of a string are collected with
its escapes resolved and read as UTF-8 when the closing mark has been passed, so every other
flaw of a string is noticed before a fault of its encoding.
-/
import OData.Json.Scan
import OData.Text.Utf8

namespace OData.Json.Scan

variable {ρ : Type}

/-- The four hexadecimal digits of an escape.  They are taken as one: with fewer bytes left the text
has ended. -/
def hexEscape : Scan ρ Nat := fun c =>
  match c.rest with
  | a :: b :: d :: e :: _ =>
    let c := c.next.next.next.next
    let digits? := do
      return ((← Byte.hexDigit? a) * 0x1000 + (← Byte.hexDigit? b) * 0x100 +
        (← Byte.hexDigit? d) * 0x10 + (← Byte.hexDigit? e))
    match digits? with
    | some n => .ok n c
    | none => flawHere .badEscape c
  | _ =>
    let (_, c) := Cursor.span (fun _ => true) c.rest c.place
    flawHere .endInString c

def isLeadingSurrogate (n : Nat) : Bool := 0xd800 ≤ n && n ≤ 0xdbff

def isTrailingSurrogate (n : Nat) : Bool := 0xdc00 ≤ n && n ≤ 0xdfff

/-- Passes the byte `b`, which the second half of a surrogate pair needs here. -/
def pairByte (b : UInt8) : Scan ρ Unit := do
  match ← peek with
  | none => flawHere .endInString
  | some a =>
    advance
    if a = b then pure () else flawHere .brokenSurrogatePair

/-- The character of an escape by code: one escape, or two that form a surrogate pair. -/
def codeEscape : Scan ρ Char := do
  let n ← hexEscape
  if isTrailingSurrogate n then flawHere .loneSurrogate
  else if isLeadingSurrogate n then
    pairByte Byte.backslash
    pairByte Byte.smallU
    let m ← hexEscape
    if isTrailingSurrogate m then
      pure (Char.ofNat ((n - 0xd800) * 0x400 + (m - 0xdc00) + 0x10000))
    else flawHere .loneSurrogate
  else pure (Char.ofNat n)

/-- What the letter behind a backslash stands for, other than a code. -/
def escapedByte? : UInt8 → Option UInt8
  | Byte.quote => some Byte.quote
  | Byte.backslash => some Byte.backslash
  | Byte.slash => some Byte.slash
  | Byte.smallB => some Byte.backspace
  | Byte.smallF => some Byte.formFeed
  | Byte.smallN => some Byte.lineFeed
  | Byte.smallR => some Byte.carriageReturn
  | Byte.smallT => some Byte.tab
  | _ => none

/-- The bytes of an escape whose backslash has been passed. -/
def escape : Scan ρ (List UInt8) := do
  match ← next with
  | none => flawHere .endInString
  | some Byte.smallU => return String.utf8EncodeChar (← codeEscape)
  | some b =>
    match escapedByte? b with
    | some e => pure [e]
    | none => flawHere .badEscape

/-- The bytes of the next byte or escape of a string; none for the closing mark. -/
def stringPiece : Scan ρ (Option (List UInt8)) := do
  match ← next with
  | none => flawHere .endInString
  | some Byte.quote => pure none
  | some Byte.backslash => return some (← escape)
  | some b => if b < 0x20 then flawHere .controlCharacter else pure (some [b])

/-- The bytes up to the closing mark, behind those in `acc`, which are in reverse order.  Every piece
takes a byte of the text, so that the length of the text suffices as `fuel`. -/
def stringBytes : (fuel : Nat) → (acc : List UInt8) → Scan ρ (List UInt8)
  | 0, _ => flawHere .endInString
  | fuel + 1, acc => do
    match ← stringPiece with
    | none => pure acc.reverse
    | some piece => stringBytes fuel (piece.reverse ++ acc)

/-- The text of `bytes`.  A fault of the encoding is reported as many columns before the cursor as
there are bytes from the fault on. -/
def decodeText (bytes : List UInt8) : Scan ρ String :=
  match Text.Utf8.decode bytes with
  | .text cs => pure (String.ofList cs)
  | .faulty valid => fun c =>
    let place := { c.place with column := c.place.column - (bytes.length - valid) }
    .error (.flaw .notUnicode place) c

/-- The string whose opening mark has been passed. -/
def stringBody : Scan ρ String := do
  let bytes ← fun c => stringBytes c.rest.length [] c
  decodeText bytes

/-- Passes an escape without a look at its code. -/
def skipEscape : Scan ρ Unit := do
  match ← next with
  | none => flawHere .endInString
  | some Byte.smallU => let _ ← hexEscape
  | some b => if (escapedByte? b).isSome then pure () else flawHere .badEscape

/-- Passes the rest of a string and its closing mark, its encoding unread. -/
def skipString : (fuel : Nat) → Scan ρ Unit
  | 0 => flawHere .endInString
  | fuel + 1 => do
    match ← peek with
    | none => flawHere .endInString
    | some Byte.quote => advance
    | some Byte.backslash => advance; skipEscape; skipString fuel
    | some b => if b < 0x20 then flawHere .controlCharacter else do advance; skipString fuel

/-- Passes the string whose opening mark has been passed. -/
def skipStringBody : Scan ρ Unit := fun c => skipString c.rest.length c

end OData.Json.Scan
