/-
# `OData.MediaType.Json` — media types in JSON

A media type is its text there.  A string that is no media type is noticed when it has been left,
so that the fault is located where the value around it ends.
-/
import OData.Json.Scan.Scalar
import OData.Json.Tree
import OData.MediaType.Text

namespace OData.MediaType

variable {ρ : Type}

/-- The JSON form. -/
def toTree (m : MediaType) : Json.Tree := .string m.text

/-- Reads a media type. -/
def scan : Json.Scan ρ MediaType := do
  let s ← Json.Scan.anyString
  match parse s with
  | .ok m => pure m
  | .error fault => Json.Scan.misfit (.rule fault.message)

end OData.MediaType
