/-
# `OData.Json.Scan.Scalar` — how a value starts, and values without parts

`start` reads the value that comes next if it has no parts, and otherwise stops in front of its
bracket.  A scan for one kind of value is `start` and a misfit for every other kind.
-/
import OData.Json.Scan.Number
import OData.Json.Scan.Text

namespace OData.Json

/-- A value without parts. -/
inductive Scalar where
  | null
  | bool (b : Bool)
  | number (n : Number)
  | string (s : String)
deriving DecidableEq, Repr

def Scalar.found : Scalar → Found
  | null => .null
  | bool b => .bool b
  | number n => n.found
  | string s => .string s

/-- How a value starts: with all of it, or with a bracket that has not been passed. -/
inductive Start where
  | scalar (s : Scalar)
  | list
  | object
deriving DecidableEq, Repr

def Start.found : Start → Found
  | scalar s => s.found
  | list => .list
  | object => .object

namespace Scan

variable {ρ : Type} {α : Type}

/-- Passes the bytes of a word. -/
def word : List UInt8 → Scan ρ Unit
  | [] => pure ()
  | w :: ws => do
    match ← next with
    | none => flawHere .endInValue
    | some b => if b = w then word ws else flawHere .expectedWord

/-- Passes a word whose first letter comes next and has been looked at. -/
def wordFrom (text : String) : Scan ρ Unit := do
  advance
  word ((Text.Utf8.encode text).drop 1)

/-- The start of the value that comes next. -/
def start : Scan ρ Start := do
  match ← space with
  | none => flawNext .endInValue
  | some Byte.smallN => wordFrom "null"; return .scalar .null
  | some Byte.smallT => wordFrom "true"; return .scalar (.bool true)
  | some Byte.smallF => wordFrom "false"; return .scalar (.bool false)
  | some Byte.minus => advance; return .scalar (.number (← number true))
  | some Byte.quote => advance; return .scalar (.string (← stringBody))
  | some Byte.openBracket => return .list
  | some Byte.openBrace => return .object
  | some b => if Byte.isDigit b then return .scalar (.number (← number false)) else flawNext .expectedValue

/-- The misfit of a value that is not `expected`. -/
def mismatch (start : Start) (expected : String) : Scan ρ α :=
  misfit (.wrongType start.found expected)

/-- A string. -/
def string (expected : String) : Scan ρ String := located do
  match ← start with
  | .scalar (.string s) => pure s
  | other => mismatch other expected

/-- A string that is neither an address nor a name: any string. -/
def anyString : Scan ρ String := string "a string"

/-- A truth value. -/
def bool : Scan ρ Bool := located do
  match ← start with
  | .scalar (.bool b) => pure b
  | other => mismatch other "a boolean"

/-- The word `null`, for a content that says nothing. -/
def nothing : Scan ρ Unit := located do
  match ← start with
  | .scalar .null => pure ()
  | other => mismatch other "unit"

/-- A whole number from `least` to `greatest`, a range called `expected`. -/
def integer (least greatest : Int) (expected : String) : Scan ρ Int := located do
  match ← start with
  | .scalar (.number (.integer n)) =>
    if least ≤ n ∧ n ≤ greatest then pure n else misfit (.wrongValue (.integer n) expected)
  | other => mismatch other expected

/-- What `scan` reads, or none for the word `null`. -/
def optional (scan : Scan ρ α) : Scan ρ (Option α) := do
  match ← space with
  | some Byte.smallN => wordFrom "null"; pure none
  | _ => return some (← scan)

end Scan

end OData.Json
