/-
# `OData.Json.Scan.Skip` — passing over a value

A value that nobody asks for is passed with a look at its form alone: it may nest to any depth,
its numbers may be of any size, and its strings need not be text.  The brackets that are open
are kept on a list, the innermost first.
-/
import OData.Json.Scan.Scalar

namespace OData.Json

/-- The kinds of brackets. -/
inductive Bracket where
  | list
  | object
deriving DecidableEq, Repr

/-- What comes next while a value is passed. -/
inductive Upcoming where
  | value
  | afterValue
deriving DecidableEq, Repr

namespace Scan

variable {ρ : Type}

/-- Passes a name and the colon behind it. -/
def skipName : Scan ρ Unit := do
  match ← space with
  | none => flawNext .endInObject
  | some Byte.quote =>
    advance
    skipStringBody
    match ← space with
    | none => flawNext .endInObject
    | some Byte.colon => advance
    | some _ => flawNext .expectedColon
  | some _ => flawNext .keyNotString

/-- Passes a bracket and, if its value is not empty, what comes before the first value in it.  Yields the
brackets that are open then and what is to come. -/
def skipOpening : Bracket → List Bracket → Scan ρ (Upcoming × List Bracket)
  | .list, outer => do
    advance
    match ← space with
    | none => flawNext .endInList
    | some Byte.closeBracket => advance; pure (.afterValue, outer)
    | some _ => pure (.value, .list :: outer)
  | .object, outer => do
    advance
    match ← space with
    | none => flawNext .endInObject
    | some Byte.closeBrace => advance; pure (.afterValue, outer)
    | some _ => skipName; pure (.value, .object :: outer)

/-- Passes a value without parts, or a bracket. -/
def skipStart (outer : List Bracket) : Scan ρ (Upcoming × List Bracket) := do
  match ← space with
  | none => flawNext .endInValue
  | some Byte.smallN => wordFrom "null"; pure (.afterValue, outer)
  | some Byte.smallT => wordFrom "true"; pure (.afterValue, outer)
  | some Byte.smallF => wordFrom "false"; pure (.afterValue, outer)
  | some Byte.minus => advance; skipNumber; pure (.afterValue, outer)
  | some Byte.quote => advance; skipStringBody; pure (.afterValue, outer)
  | some Byte.openBracket => skipOpening .list outer
  | some Byte.openBrace => skipOpening .object outer
  | some b => do
    if Byte.isDigit b then skipNumber; pure (.afterValue, outer) else flawNext .expectedValue

/-- Passes what follows a value inside a bracket: a comma, or the closing bracket. -/
def skipSeparator : Bracket → List Bracket → Scan ρ (Upcoming × List Bracket)
  | .list, outer => do
    match ← space with
    | none => flawNext .endInList
    | some Byte.comma => advance; pure (.value, .list :: outer)
    | some Byte.closeBracket => advance; pure (.afterValue, outer)
    | some _ => flawNext .expectedListEnd
  | .object, outer => do
    match ← space with
    | none => flawNext .endInObject
    | some Byte.comma => advance; skipName; pure (.value, .object :: outer)
    | some Byte.closeBrace => advance; pure (.afterValue, outer)
    | some _ => flawNext .expectedObjectEnd

/-- Passes the rest of a value.  Every step takes a byte of the text, so that its length suffices as
`fuel`. -/
def skipFrom : (fuel : Nat) → Upcoming → List Bracket → Scan ρ Unit
  | _, .afterValue, [] => pure ()
  | 0, _, _ => flawNext .endInValue
  | fuel + 1, .value, outer => do
    let (upcoming, outer) ← skipStart outer
    skipFrom fuel upcoming outer
  | fuel + 1, .afterValue, bracket :: outer => do
    let (upcoming, outer) ← skipSeparator bracket outer
    skipFrom fuel upcoming outer

/-- Passes the value that comes next. -/
def skip : Scan ρ Unit := fun c => skipFrom (c.rest.length + 1) .value [] c

end Scan

end OData.Json
