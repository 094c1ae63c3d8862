/-
# `OData.Format.Extension` — formats that a deployment adds for some kinds of payload
-/
import OData.Format.Basic
import OData.PayloadKind

namespace OData

/-- Formats to be added for some kinds of payload. -/
structure FormatExtension where
  kinds : List PayloadKind
  formats : List Format
deriving DecidableEq

namespace FormatExtension

open Json Json.Scan

/-- Business cards, for properties. -/
def vcard : FormatExtension :=
  ⟨[.property], [⟨.new "text" "x-vCard", .custom "VCard"⟩]⟩

/-- The Avro format, for whatever is made of resources and values. -/
def avro : FormatExtension :=
  ⟨[.resourceSet, .resource, .property, .collection, .parameter, .error],
    [⟨.new "avro" "binary", .custom "Avro"⟩]⟩

/-- The extension adds its formats for payloads of this kind. -/
def appliesTo (e : FormatExtension) (kind : PayloadKind) : Bool := e.kinds.contains kind

/-- The JSON form. -/
def toTree (e : FormatExtension) : Json.Tree :=
  .object [("kinds", .list (e.kinds.map PayloadKind.toTree)),
    ("formats", .list (e.formats.map Format.toTree))]

/-- The fields of an extension read so far. -/
structure Draft where
  kinds : Option (List PayloadKind) := none
  formats : Option (List Format) := none

variable {ρ : Type}

def Draft.step (room : Nat) (d : Draft) : String → Scan ρ Draft
  | "kinds" => return { d with kinds := ← field "kinds" d.kinds (listOf PayloadKind.scan room) }
  | "formats" => return { d with formats := ← field "formats" d.formats (listOf Format.scan room) }
  | _ => do member skip; pure d

def Draft.finish (d : Draft) : Scan ρ FormatExtension := do
  let kinds ← required "kinds" d.kinds
  let formats ← required "formats" d.formats
  pure ⟨kinds, formats⟩

/-- Reads an extension. -/
def scan (room : Nat) : Scan ρ FormatExtension :=
  let expected := "struct FormatExtension"
  let items (room : Nat) : Scan ρ FormatExtension := do
    let expected := expected ++ " with 2 elements"
    let kinds ← requiredItem 0 expected (listOf PayloadKind.scan room)
    let formats ← requiredItem 1 expected (listOf Format.scan room)
    pure ⟨kinds, formats⟩
  record expected (fun room => do (← members (Draft.step room) {}).finish) items room

end FormatExtension

end OData
