/-
# `OData.Value.Scan` — reading protocol values

Every JSON value is a protocol value, but for an object that repeats a name.  Integers take the
narrower width that holds them, and those beyond 64 signed bits become doubles.
-/
import OData.Json.Scan.Container
import OData.Value.Basic

namespace OData.Value

open Json Json.Scan

variable {ρ : Type}

/-- The value of a JSON number. -/
def ofNumber : Json.Number → Value
  | .integer n =>
    match Text.int64OfInt? n with
    | some n => integer n
    | none => double (Double.ofNat n.toNat)
  | .double d => double d

/-- The value of a JSON value without parts. -/
def ofScalar : Scalar → Value
  | .null => null
  | .bool b => boolean b
  | .number n => ofNumber n
  | .string s => string s

/-- Reads a member behind those in `members`, which are in reverse order and must not have its name. -/
def scanMember (value : Scan ρ Value) (members : List (String × Value)) (name : String) :
    Scan ρ (List (String × Value)) := do
  let v ← member value
  if members.any fun m => m.1 == name then misfit (.duplicateMember name)
  else pure ((name, v) :: members)

/-- Reads a value, `list` and `object` reading it if it starts with a bracket. -/
def scanWith (list object : Scan ρ Value) : Scan ρ Value := located do
  match ← start with
  | .scalar s => pure (ofScalar s)
  | .list => list
  | .object => object

/-- Reads the members of a resource. -/
def scanMembers (value : Scan ρ Value) : Scan ρ Value := do
  let reversed ← members (scanMember value) []
  pure (resource reversed.reverse)

/-- Reads a value in which containers nest at most `room` deep. -/
def scan : (room : Nat) → Scan ρ Value
  | 0 => scanWith (flawNext .tooDeep) (flawNext .tooDeep)
  | room + 1 =>
    scanWith (listOpening (room + 1) fun _ => return collection (← collect (scan room)))
      (objectOpening (room + 1) fun _ => scanMembers (scan room))

end OData.Value
