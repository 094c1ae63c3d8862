/-
# `OData.Annotation.Basic` — instance annotations

An annotation attaches a named value to a link or to a collection of links.  Names tell case
apart and may be anything here; whether they are fit for a payload is checked when one is written
or read.
-/
import OData.Json.Scan.Record
import OData.Value.Scan

namespace OData

/-- A named value that is attached to something. -/
structure InstanceAnnotation where
  name : String
  value : Value
deriving Repr

namespace InstanceAnnotation

open Json Json.Scan

/-- Equality of annotations. -/
def eq (a b : InstanceAnnotation) : Bool := a.name == b.name && a.value.eq b.value

/-- The JSON form. -/
def toTree (a : InstanceAnnotation) : Json.Tree :=
  .object [("name", .string a.name), ("value", a.value.toTree)]

/-- The fields of an annotation read so far. -/
structure Draft where
  name : Option String := none
  value : Option Value := none

variable {ρ : Type}

def Draft.step (room : Nat) (d : Draft) : String → Scan ρ Draft
  | "name" => return { d with name := ← field "name" d.name anyString }
  | "value" => return { d with value := ← field "value" d.value (Value.scan room) }
  | _ => do member skip; pure d

def Draft.finish (d : Draft) : Scan ρ InstanceAnnotation := do
  let name ← required "name" d.name
  let value ← required "value" d.value
  pure ⟨name, value⟩

/-- Reads an annotation. -/
def scan (room : Nat) : Scan ρ InstanceAnnotation :=
  let expected := "struct InstanceAnnotation"
  let items (room : Nat) : Scan ρ InstanceAnnotation := do
    let expected := expected ++ " with 2 elements"
    let name ← requiredItem 0 expected anyString
    let value ← requiredItem 1 expected (Value.scan room)
    pure ⟨name, value⟩
  record expected (fun room => do (← members (Draft.step room) {}).finish) items room

end InstanceAnnotation

end OData
