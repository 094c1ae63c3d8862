/-
# `OData.Settings` — how payloads are written and read

With `ieee754Compatible` 64-bit integers are strings, for the sake of readers that hold every
number in a double.  A media type asks for it by a parameter of that name.
-/
import OData.ContextUrl
import OData.Format.Basic
import OData.Json.Scan.Record
import OData.Payload.Error

namespace OData

open Json Json.Scan

/-- How payloads are written. -/
structure WriterSettings where
  contextUrl : String := ""
  annotationFilter : AnnotationFilter := .all
  ieee754Compatible : Bool := false
deriving DecidableEq, Repr

/-- How payloads are read. -/
structure ReaderSettings where
  annotationFilter : AnnotationFilter := .all
  /-- The greatest size of a payload that is read from a stream. -/
  maxPayloadSize : UInt64 := 16 * 1024 * 1024
  ieee754Compatible : Bool := false
deriving DecidableEq, Repr

/-- The media type asks for 64-bit integers as strings. -/
def MediaType.ieee754Compatible (m : MediaType) : Bool :=
  (m.get? "IEEE754Compatible").any fun value => Text.sameName value "true"

variable {ρ : Type}

namespace WriterSettings

/-- For collections of links of a service. -/
def ofServiceRoot (root : Url) : WriterSettings := { contextUrl := ContextUrl.referenceLinks root }

/-- For a media type. -/
def ofMediaType (contextUrl : String) (m : MediaType) : WriterSettings :=
  { contextUrl, ieee754Compatible := m.ieee754Compatible }

/-- For a format, which must be JSON. -/
def ofFormat (contextUrl : String) (f : Format) : Except PayloadError WriterSettings :=
  if f.encoding = .json then .ok (ofMediaType contextUrl f.mediaType)
  else .error (.unsupportedEncoding f.encoding)

/-- The JSON form. -/
def toTree (s : WriterSettings) : Json.Tree :=
  .object [("context_url", .string s.contextUrl), ("annotation_filter", s.annotationFilter.toTree),
    ("ieee754_compatible", .bool s.ieee754Compatible)]

/-- The fields of settings read so far. -/
structure Draft where
  contextUrl : Option String := none
  annotationFilter : Option AnnotationFilter := none
  ieee754Compatible : Option Bool := none

def Draft.step (d : Draft) : String → Scan ρ Draft
  | "context_url" => return { d with contextUrl := ← field "context_url" d.contextUrl anyString }
  | "annotation_filter" =>
    return { d with
      annotationFilter := ← field "annotation_filter" d.annotationFilter AnnotationFilter.scan }
  | "ieee754_compatible" =>
    return { d with ieee754Compatible := ← field "ieee754_compatible" d.ieee754Compatible bool }
  | _ => do member skip; pure d

/-- The settings, absent fields having their defaults. -/
def Draft.finish (d : Draft) : WriterSettings :=
  let default : WriterSettings := {}
  ⟨d.contextUrl.getD default.contextUrl, d.annotationFilter.getD default.annotationFilter,
    d.ieee754Compatible.getD default.ieee754Compatible⟩

/-- Reads settings. -/
def scan (room : Nat) : Scan ρ WriterSettings :=
  let items (_ : Nat) : Scan ρ WriterSettings := do
    let contextUrl ← item? true anyString
    let annotationFilter ← item? false AnnotationFilter.scan
    let ieee754Compatible ← item? false bool
    pure (Draft.finish ⟨contextUrl, annotationFilter, ieee754Compatible⟩)
  record "struct WriterSettings" (fun _ => return (← members Draft.step {}).finish) items room

end WriterSettings

namespace ReaderSettings

/-- For a media type. -/
def ofMediaType (m : MediaType) : ReaderSettings := { ieee754Compatible := m.ieee754Compatible }

/-- The JSON form. -/
def toTree (s : ReaderSettings) : Json.Tree :=
  .object [("annotation_filter", s.annotationFilter.toTree),
    ("max_payload_size", .integer s.maxPayloadSize.toNat),
    ("ieee754_compatible", .bool s.ieee754Compatible)]

/-- The fields of settings read so far. -/
structure Draft where
  annotationFilter : Option AnnotationFilter := none
  maxPayloadSize : Option UInt64 := none
  ieee754Compatible : Option Bool := none

/-- Reads a size. -/
def scanSize : Scan ρ UInt64 := do
  return UInt64.ofNat (← integer 0 (2 ^ 64 - 1) "usize").toNat

def Draft.step (d : Draft) : String → Scan ρ Draft
  | "annotation_filter" =>
    return { d with
      annotationFilter := ← field "annotation_filter" d.annotationFilter AnnotationFilter.scan }
  | "max_payload_size" =>
    return { d with maxPayloadSize := ← field "max_payload_size" d.maxPayloadSize scanSize }
  | "ieee754_compatible" =>
    return { d with ieee754Compatible := ← field "ieee754_compatible" d.ieee754Compatible bool }
  | _ => do member skip; pure d

/-- The settings, absent fields having their defaults. -/
def Draft.finish (d : Draft) : ReaderSettings :=
  let default : ReaderSettings := {}
  ⟨d.annotationFilter.getD default.annotationFilter, d.maxPayloadSize.getD default.maxPayloadSize,
    d.ieee754Compatible.getD default.ieee754Compatible⟩

/-- Reads settings. -/
def scan (room : Nat) : Scan ρ ReaderSettings :=
  let items (_ : Nat) : Scan ρ ReaderSettings := do
    let annotationFilter ← item? true AnnotationFilter.scan
    let maxPayloadSize ← item? false scanSize
    let ieee754Compatible ← item? false bool
    pure (Draft.finish ⟨annotationFilter, maxPayloadSize, ieee754Compatible⟩)
  record "struct ReaderSettings" (fun _ => return (← members Draft.step {}).finish) items room

end ReaderSettings

end OData
