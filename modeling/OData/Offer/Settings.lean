/-
# `OData.Offer.Settings` — how an offer is made

A deployment says whether the legacy encoding is offered, and what it adds to the standard formats.
-/
import OData.Offer

namespace OData

/-- What an offer is made from. -/
structure OfferSettings where
  legacy : Bool := false
  extensions : List FormatExtension := []
deriving DecidableEq

namespace OfferSettings

open Json Json.Scan

/-- The offer: one layer over the standard formats. -/
def offer (s : OfferSettings) : Offer := .layer (.table (.standard s.legacy)) s.extensions

/-- The JSON form. -/
def toTree (s : OfferSettings) : Json.Tree :=
  .object [("enable_legacy", .bool s.legacy),
    ("extensions", .list (s.extensions.map FormatExtension.toTree))]

/-- The fields of settings read so far. -/
structure Draft where
  legacy : Option Bool := none
  extensions : Option (List FormatExtension) := none

variable {ρ : Type}

def Draft.step (room : Nat) (d : Draft) : String → Scan ρ Draft
  | "enable_legacy" => return { d with legacy := ← field "enable_legacy" d.legacy bool }
  | "extensions" =>
    return { d with
      extensions := ← field "extensions" d.extensions (listOf FormatExtension.scan room) }
  | _ => do member skip; pure d

/-- The settings, absent fields having their defaults. -/
def Draft.finish (d : Draft) : OfferSettings :=
  ⟨d.legacy.getD false, d.extensions.getD []⟩

/-- Reads settings. -/
def scan (room : Nat) : Scan ρ OfferSettings :=
  let items (room : Nat) : Scan ρ OfferSettings := do
    let legacy ← item? true bool
    let extensions ← item? false (listOf FormatExtension.scan room)
    pure (Draft.finish ⟨legacy, extensions⟩)
  record "struct ResolverConfig" (fun room => return (← members (Draft.step room) {}).finish)
    items room

end OfferSettings

end OData
