/-
# `OData.Format.Basic` — formats

A format pairs a media type, by which a client asks for it, with the encoding that writes it.
-/
import OData.Encoding
import OData.MediaType.Json

namespace OData

/-- A format to choose from: a media type and the encoding it stands for. -/
structure Format where
  mediaType : MediaType
  encoding : Encoding
deriving DecidableEq

namespace Format

open Json Json.Scan

/-- A format in words. -/
def text (f : Format) : String := s!"{f.mediaType.text} ({f.encoding.name})"

/-- The JSON form. -/
def toTree (f : Format) : Json.Tree :=
  .object [("media_type", f.mediaType.toTree), ("encoding", f.encoding.toTree)]

/-- The fields of a format read so far. -/
structure Draft where
  mediaType : Option MediaType := none
  encoding : Option Encoding := none

variable {ρ : Type}

def Draft.step (room : Nat) (d : Draft) : String → Scan ρ Draft
  | "media_type" => return { d with mediaType := ← field "media_type" d.mediaType MediaType.scan }
  | "encoding" => return { d with encoding := ← field "encoding" d.encoding (Encoding.scan room) }
  | _ => do member skip; pure d

def Draft.finish (d : Draft) : Scan ρ Format := do
  let mediaType ← required "media_type" d.mediaType
  let encoding ← required "encoding" d.encoding
  pure ⟨mediaType, encoding⟩

/-- Reads a format. -/
def scan (room : Nat) : Scan ρ Format :=
  let expected := "struct MediaTypeFormat"
  let items (room : Nat) : Scan ρ Format := do
    let expected := expected ++ " with 2 elements"
    let mediaType ← requiredItem 0 expected MediaType.scan
    let encoding ← requiredItem 1 expected (Encoding.scan room)
    pure ⟨mediaType, encoding⟩
  record expected (fun room => do (← members (Draft.step room) {}).finish) items room

end Format

end OData
