/-
# `OData.Offer` — which formats a payload can be written in

An offer lists, for each kind of payload, the formats to choose from, the preferred one first.
Offers are layered: a layer adds the formats of its extensions behind those of the layer below
it, and a format whose media type is there already is not added again.
-/
import OData.Format.Extension
import OData.Format.Standard

namespace OData

/-- An offer: a table, or a layer of extensions over an offer. -/
inductive Offer where
  | table (formats : FormatTable)
  | layer (below : Offer) (extensions : List FormatExtension)

namespace Offer

/-- The formats with `f` behind them, unless its media type is there already. -/
def addFormat (formats : List Format) (f : Format) : List Format :=
  if formats.any fun g => g.mediaType == f.mediaType then formats else formats ++ [f]

/-- The formats that `extensions` have for payloads of this kind, in order. -/
def additions (extensions : List FormatExtension) (kind : PayloadKind) : List Format :=
  (extensions.filter (·.appliesTo kind)).flatMap (·.formats)

/-- The formats for a kind of payload. -/
def formats : Offer → PayloadKind → List Format
  | table formats, kind => formats kind
  | layer below extensions, kind => (additions extensions kind).foldl addFormat (below.formats kind)

/-- No layer has an extension with a format for this kind of payload, so that the formats are those of
the table. -/
def isPlain : Offer → PayloadKind → Bool
  | table _, _ => true
  | layer below extensions, kind => (additions extensions kind).isEmpty && below.isPlain kind

/-- The offer with one more extension in its top layer; a table gets a layer for it. -/
def extend (e : FormatExtension) : Offer → Offer
  | table formats => layer (table formats) [e]
  | layer below extensions => layer below (extensions ++ [e])

/-- The extensions of the top layer. -/
def extensions : Offer → List FormatExtension
  | table _ => []
  | layer _ extensions => extensions

end Offer

end OData
