/-
# `OData.Encoding` — families of ways to write a payload

Five encodings belong to the protocol; deployments add their own by name.
-/
import OData.Json.Scan.Record
import OData.Json.Tree

namespace OData

/-- A family of ways to write a payload. -/
inductive Encoding where
  /-- The legacy encoding in XML. -/
  | atom
  | json
  /-- A value without an envelope. -/
  | rawValue
  /-- The metadata document. -/
  | metadata
  /-- Several messages in one. -/
  | batch
  /-- An encoding that a deployment adds. -/
  | custom (name : String)
deriving DecidableEq, Repr

namespace Encoding

def name : Encoding → String
  | atom => "Atom"
  | json => "Json"
  | rawValue => "RawValue"
  | metadata => "Metadata"
  | batch => "Batch"
  | custom name => name

/-- The JSON form. -/
def toTree : Encoding → Json.Tree
  | atom => .string "atom"
  | json => .string "json"
  | rawValue => .string "raw_value"
  | metadata => .string "metadata"
  | batch => .string "batch"
  | custom name => .object [("custom", .string name)]

/-- The names in JSON; that of a custom encoding needs its own name for content. -/
def jsonNames : List (String × Option Encoding) :=
  [("atom", some atom), ("json", some json), ("raw_value", some rawValue),
    ("metadata", some metadata), ("batch", some batch), ("custom", none)]

variable {ρ : Type}

/-- Reads an encoding. -/
def scan (room : Nat) : Json.Scan ρ Encoding :=
  Json.Scan.variant jsonNames
    (fun
      | some e => pure e
      | none => Json.Scan.misfit (.wrongType .bareVariant "newtype variant"))
    (fun
      | some e => do Json.Scan.nothing; pure e
      | none => return custom (← Json.Scan.anyString))
    room

end Encoding

end OData
