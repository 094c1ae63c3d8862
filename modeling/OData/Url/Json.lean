/-
# `OData.Url.Json` — URLs in JSON

A URL is kept as its text.
-/
import OData.Json.Scan.Scalar
import OData.Json.Tree
import OData.Url.Basic

namespace OData.Url

/-- The JSON form. -/
def toTree (u : Url) : Json.Tree := .string u.text

/-- Reads a URL. -/
def scan {ρ : Type} (parseUrl : Parser) : Json.Scan ρ Url := Json.Scan.located do
  let s ← Json.Scan.string "a string representing an URL"
  match parseUrl s with
  | .ok u => pure u
  | .error fault =>
    let quoted := Text.quote s
    Json.Scan.misfit (.rule s!"{fault.message}: {quoted}")

end OData.Url
