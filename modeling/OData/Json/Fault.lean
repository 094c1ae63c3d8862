/-
# `OData.Json.Fault` — why a JSON text was not read

Three things can stop a reader, and they are kept apart because callers answer them differently:

| | |
| :-- | :-- |
| a *flaw* | the text is not JSON, or outside the limits on depth, numbers and characters |
| a *misfit* | the text is JSON, but not a value of the kind that is wanted here |
| a *refusal* | the value is of the right kind, and the reader of the payload turns it down for a reason of its own, of type `ρ` |

A flaw is known at a position.  A misfit is noticed by whoever asked for the value, who does not
know the position; it is located when the innermost value around it has been left.  A refusal is
about the content and has no position at all.
-/
import OData.Number.Notation
import OData.Text.Integer
import OData.Text.Quoted
import OData.Text.Split

namespace OData.Json

/-- A place between two bytes: the line, counted from one, and the bytes since its beginning. -/
structure Position where
  line : Nat
  column : Nat
deriving DecidableEq, Repr

/-- The place behind the byte `b`. -/
def Position.after (p : Position) (b : UInt8) : Position :=
  if b = 0x0a then ⟨p.line + 1, 0⟩ else ⟨p.line, p.column + 1⟩

def Position.text (p : Position) : String := s!"line {p.line} column {p.column}"

/-- What is wrong with a text that is not JSON. -/
inductive Flaw where
  | endInList
  | endInObject
  | endInString
  | endInValue
  | expectedValue
  | expectedWord
  | expectedColon
  | expectedListEnd
  | expectedObjectEnd
  | keyNotString
  | trailingComma
  | trailingText
  | tooDeep
  | badNumber
  | numberOutOfRange
  | controlCharacter
  | badEscape
  | loneSurrogate
  | brokenSurrogatePair
  | notUnicode
deriving DecidableEq, Repr

namespace Flaw

def message : Flaw → String
  | endInList => "EOF while parsing a list"
  | endInObject => "EOF while parsing an object"
  | endInString => "EOF while parsing a string"
  | endInValue => "EOF while parsing a value"
  | expectedValue => "expected value"
  | expectedWord => "expected ident"
  | expectedColon => "expected `:`"
  | expectedListEnd => "expected `,` or `]`"
  | expectedObjectEnd => "expected `,` or `\x7d`"
  | keyNotString => "key must be a string"
  | trailingComma => "trailing comma"
  | trailingText => "trailing characters"
  | tooDeep => "recursion limit exceeded"
  | badNumber => "invalid number"
  | numberOutOfRange => "number out of range"
  | controlCharacter => "control character (\\u0000-\\u001F) found while parsing a string"
  | badEscape => "invalid escape"
  | loneSurrogate => "lone leading surrogate in hex escape"
  | brokenSurrogatePair => "unexpected end of hex escape"
  | notUnicode => "invalid unicode code point"

/-- The text ended too early: more of it could mend the flaw. -/
def isEnd : Flaw → Bool
  | endInList | endInObject | endInString | endInValue => true
  | _ => false

end Flaw

/-- What a reader came upon, as a message describes it. -/
inductive Found where
  | null
  | bool (b : Bool)
  | integer (n : Int)
  | double (d : Double)
  | string (s : String)
  | list
  | object
  | bareVariant
deriving DecidableEq, Repr

def Found.description : Found → String
  | null => "null"
  | bool b => s!"boolean `{b}`"
  | integer n => s!"integer `{Text.decimal n}`"
  | double d =>
    let number := (Notation.jsonNumber.text? d).getD "NaN"
    s!"floating point `{number}`"
  | string s => "string " ++ Text.quote s
  | list => "sequence"
  | object => "map"
  | bareVariant => "unit variant"

/-- How a well-formed value differs from the one that is wanted. -/
inductive Misfit where
  | wrongType (found : Found) (expected : String)
  | wrongValue (found : Found) (expected : String)
  | wrongLength (length : Nat) (expected : String)
  | unknownVariant (name : String) (known : List String)
  | duplicateField (name : String)
  | missingField (name : String)
  | duplicateMember (name : String)
  /-- Any rule of the type that the value was read for, in the words of that type. -/
  | rule (message : String)
deriving DecidableEq, Repr

def Misfit.message : Misfit → String
  | wrongType found expected => s!"invalid type: {found.description}, expected {expected}"
  | wrongValue found expected => s!"invalid value: {found.description}, expected {expected}"
  | wrongLength length expected => s!"invalid length {length}, expected {expected}"
  | unknownVariant name known =>
    let names := ", ".intercalate (known.map fun k => s!"`{k}`")
    s!"unknown variant `{name}`, expected one of {names}"
  | duplicateField name => s!"duplicate field `{name}`"
  | missingField name => s!"missing field `{name}`"
  | duplicateMember name => s!"duplicate member name: {name}"
  | rule message => message

/-- Why a JSON text was not read. -/
inductive Fault (ρ : Type) where
  | flaw (flaw : Flaw) (place : Position)
  | misfit (misfit : Misfit) (place : Option Position)
  | refusal (reason : ρ)
deriving DecidableEq, Repr

/-- The part of `cs` in front of the last `mark`, and the part behind it. -/
def splitLast (mark : List Char) : List Char → Option (List Char × List Char)
  | [] => none
  | c :: cs =>
    match splitLast mark cs with
    | some (before, after) => some (c :: before, after)
    | none => (Text.dropBeginning? mark (c :: cs)).map fun after => ([], after)

/-- A line or column number. -/
def placeNumber? (cs : List Char) : Option Nat :=
  (Text.natural? cs).filter (· < 2 ^ 64)

/-- A message that ends in a position, and that position. -/
def placedMessage? (message : String) : Option (String × Position) := do
  let (text, place) ← splitLast " at line ".toList message.toList
  let line := place.takeWhile Char.isDigit
  let column ← Text.dropBeginning? " column ".toList (place.dropWhile Char.isDigit)
  return (String.ofList text, ⟨← placeNumber? line, ← placeNumber? column⟩)

/-- The message of a misfit with its position, if it has one.  A position at the end of the message
itself is taken for the position of the misfit; there is no line zero. -/
def located (message : String) (place : Option Position) : String :=
  let (text, place) :=
    match placedMessage? message with
    | some (text, own) => (text, if own.line = 0 then place else some own)
    | none => (message, place)
  match place with
  | some p => s!"{text} at {p.text}"
  | none => text

namespace Fault

variable {ρ : Type}

/-- A misfit without a position is at `p`. -/
def placed (p : Position) : Fault ρ → Fault ρ
  | misfit m none => misfit m (some p)
  | fault => fault

/-- The fault in words, a refusal in those of `refusalMessage`. -/
def message (refusalMessage : ρ → String) : Fault ρ → String
  | flaw f place => s!"{f.message} at {place.text}"
  | misfit m place => located m.message place
  | refusal reason => refusalMessage reason

end Fault

end OData.Json
