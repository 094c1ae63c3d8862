/-
# `OData.PayloadKind` — the shapes of protocol messages

There are sixteen kinds of payload, in a fixed order; tables by kind have a row for each in this
order.  A kind has a protocol name and a name in JSON.
-/
import OData.Json.Scan.Record
import OData.Json.Tree

namespace OData

/-- The logical shape of a protocol message. -/
inductive PayloadKind where
  /-- A collection of resources. -/
  | resourceSet
  | resource
  /-- A top-level property. -/
  | property
  /-- A reference to an entity. -/
  | entityReferenceLink
  /-- A collection of references to entities. -/
  | entityReferenceLinks
  /-- A raw primitive value. -/
  | value
  /-- A raw binary value. -/
  | binaryValue
  /-- A collection of primitive or complex values. -/
  | collection
  | serviceDocument
  | metadataDocument
  | error
  /-- A batch request or response. -/
  | batch
  /-- The parameters of an action. -/
  | parameter
  | individualProperty
  /-- A response that lists changes. -/
  | delta
  /-- The envelope of an asynchronous response. -/
  | asynchronous
deriving DecidableEq, Repr

namespace PayloadKind

/-- Every kind, in order. -/
def all : List PayloadKind :=
  [resourceSet, resource, property, entityReferenceLink, entityReferenceLinks, value, binaryValue,
    collection, serviceDocument, metadataDocument, error, batch, parameter, individualProperty,
    delta, asynchronous]

/-- The place of a kind in the order. -/
def index (k : PayloadKind) : Nat := k.ctorIdx

/-- The protocol name. -/
def name : PayloadKind → String
  | resourceSet => "ResourceSet"
  | resource => "Resource"
  | property => "Property"
  | entityReferenceLink => "EntityReferenceLink"
  | entityReferenceLinks => "EntityReferenceLinks"
  | value => "Value"
  | binaryValue => "BinaryValue"
  | collection => "Collection"
  | serviceDocument => "ServiceDocument"
  | metadataDocument => "MetadataDocument"
  | error => "Error"
  | batch => "Batch"
  | parameter => "Parameter"
  | individualProperty => "IndividualProperty"
  | delta => "Delta"
  | asynchronous => "Asynchronous"

/-- The name in JSON. -/
def jsonName : PayloadKind → String
  | resourceSet => "resource_set"
  | resource => "resource"
  | property => "property"
  | entityReferenceLink => "entity_reference_link"
  | entityReferenceLinks => "entity_reference_links"
  | value => "value"
  | binaryValue => "binary_value"
  | collection => "collection"
  | serviceDocument => "service_document"
  | metadataDocument => "metadata_document"
  | error => "error"
  | batch => "batch"
  | parameter => "parameter"
  | individualProperty => "individual_property"
  | delta => "delta"
  | asynchronous => "asynchronous"

/-- The kind of a protocol name. -/
def ofName? (name : String) : Option PayloadKind := all.find? (·.name == name)

theorem mem_all (k : PayloadKind) : k ∈ all := by cases k <;> decide

/-- The JSON form. -/
def toTree (k : PayloadKind) : Json.Tree := .string k.jsonName

/-- Reads a kind. -/
def scan {ρ : Type} (room : Nat) : Json.Scan ρ PayloadKind :=
  Json.Scan.variant (all.map fun k => (k.jsonName, k)) pure
    (fun k => do Json.Scan.nothing; pure k) room

end PayloadKind

end OData
