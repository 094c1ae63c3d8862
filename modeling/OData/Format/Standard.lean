/-
# `OData.Format.Standard` — the formats that payloads of each kind have from the start

A row lists the formats of one kind, the preferred one first.  `jsonMediaTypes` are the ways to
ask for JSON: the parameters of JSON are optional, and of all the media types that have some of
them only those with every parameter, and the bare one, are offered.  `FormatTable.standard` puts
them in front of the row.
-/
import OData.Format.Basic
import OData.PayloadKind

namespace OData

namespace Format

/-- A format without parameters. -/
def plain (typeName subtype : String) (encoding : Encoding) : Format :=
  ⟨.new typeName subtype, encoding⟩

def atom : Format := plain "application" "atom+xml" .atom
def atomFeed : Format := ⟨atom.mediaType.insert "type" "feed", .atom⟩
def atomEntry : Format := ⟨atom.mediaType.insert "type" "entry", .atom⟩
def atomService : Format := plain "application" "atomsvc+xml" .atom
def xml : Format := plain "application" "xml" .atom
def textXml : Format := plain "text" "xml" .atom
def textPlain : Format := plain "text" "plain" .rawValue
def octetStream : Format := plain "application" "octet-stream" .rawValue
def metadataXml : Format := plain "application" "xml" .metadata
/-- The boundary parameter is made for each message, so that it is not part of the table. -/
def multipartMixed : Format := plain "multipart" "mixed" .batch
def http : Format := plain "application" "http" .rawValue

/-- The formats that need no encoding in XML but that of the metadata document. -/
def modernRow : PayloadKind → List Format
  | .value => [textPlain]
  | .binaryValue => [octetStream]
  | .metadataDocument => [metadataXml]
  | .batch => [multipartMixed]
  | .asynchronous => [http]
  | _ => []

/-- The formats with the legacy encoding in XML. -/
def legacyRow : PayloadKind → List Format
  | .resourceSet | .entityReferenceLinks | .delta => [atomFeed, atom]
  | .resource => [atomEntry, atom]
  | .property | .entityReferenceLink | .collection | .individualProperty => [xml, textXml]
  | .serviceDocument => [xml, atomService]
  | .error => [xml]
  | kind => modernRow kind

/-- The kinds of payload that can be written as JSON. -/
def jsonKinds : List PayloadKind :=
  [.resourceSet, .resource, .property, .entityReferenceLink, .entityReferenceLinks, .collection,
    .serviceDocument, .error, .parameter, .individualProperty]

/-- The optional parameters of JSON and their values, the preferred value first. -/
def jsonParameters : List (String × List String) :=
  [("odata.metadata", ["minimal", "full", "none"]), ("odata.streaming", ["true", "false"]),
    ("IEEE754Compatible", ["false", "true"])]

/-- Every media type with each value of a parameter, and behind these itself. -/
def specialize (mediaTypes : List MediaType) (parameter : String × List String) : List MediaType :=
  mediaTypes.flatMap fun m => parameter.2.map (m.insert parameter.1) ++ [m]

/-- The media types of JSON, the most specific first. -/
def jsonMediaTypes : List MediaType :=
  (jsonParameters.foldl specialize [.new "application" "json"]).filter fun m =>
    m.parameters.length == jsonParameters.length || m.parameters.length == 0

end Format

/-- The formats of each kind of payload, in order of preference. -/
abbrev FormatTable := PayloadKind → List Format

namespace FormatTable

/-- The formats that payloads have from the start: JSON first, if the kind can be written so. -/
def standard (legacy : Bool) : FormatTable := fun kind =>
  let json := if Format.jsonKinds.contains kind then
    Format.jsonMediaTypes.map fun m => ⟨m, .json⟩ else []
  json ++ if legacy then Format.legacyRow kind else Format.modernRow kind

/-- The format for a client that states no preference. -/
def default? (table : FormatTable) (kind : PayloadKind) : Option Format := (table kind).head?

end FormatTable

end OData
