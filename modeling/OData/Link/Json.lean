/-
# `OData.Link.Json` — links in JSON, field by field

This is the form in which links are kept, not the form in which they are sent: it says whether a
collection is populated, and any name of an annotation may be kept.  Empty lists of annotations
and absent values are not written.
-/
import OData.Link.Basic
import OData.Url.Json

namespace OData

open Json Json.Scan

variable {ρ : Type} (parseUrl : Url.Parser)

/-- The field for annotations, unless there are none. -/
def annotationsField (annotations : List InstanceAnnotation) : List (String × Json.Tree) :=
  if annotations.isEmpty then []
  else [("instance_annotations", .list (annotations.map InstanceAnnotation.toTree))]

namespace ReferenceLink

/-- The JSON form. -/
def toTree (l : ReferenceLink) : Json.Tree :=
  .object (("url", l.url.toTree) :: annotationsField l.annotations)

/-- The fields of a link read so far. -/
structure Draft where
  url : Option Url := none
  annotations : Option (List InstanceAnnotation) := none

def Draft.step (room : Nat) (d : Draft) : String → Scan ρ Draft
  | "url" => return { d with url := ← field "url" d.url (Url.scan parseUrl) }
  | "instance_annotations" =>
    return { d with
      annotations :=
        ← field "instance_annotations" d.annotations (listOf InstanceAnnotation.scan room) }
  | _ => do member skip; pure d

def Draft.finish (d : Draft) : Scan ρ ReferenceLink := do
  return ⟨← required "url" d.url, d.annotations.getD []⟩

/-- Reads a link. -/
def scan (room : Nat) : Scan ρ ReferenceLink :=
  let expected := "struct EntityReferenceLink"
  let items (room : Nat) : Scan ρ ReferenceLink := do
    let url ← requiredItem 0 (expected ++ " with 2 elements") (Url.scan parseUrl)
    let annotations ← item? false (listOf InstanceAnnotation.scan room)
    pure ⟨url, annotations.getD []⟩
  record expected (fun room => do (← members (Draft.step parseUrl room) {}).finish) items room

end ReferenceLink

namespace ReferenceLinks

/-- The JSON form. -/
def toTree (ls : ReferenceLinks) : Json.Tree :=
  let links := match ls.links with
    | some links => .list (links.map ReferenceLink.toTree)
    | none => .null
  let count := match ls.count with
    | some n => [("count", .integer n.toInt)]
    | none => []
  let nextPage := match ls.nextPage with
    | some url => [("next_page_link", url.toTree)]
    | none => []
  .object ([("links", links)] ++ count ++ nextPage ++ annotationsField ls.annotations)

/-- The fields of a collection read so far. -/
structure Draft where
  links : Option (Option (List ReferenceLink)) := none
  count : Option (Option Int64) := none
  nextPage : Option (Option Url) := none
  annotations : Option (List InstanceAnnotation) := none

/-- Reads the number of links. -/
def scanCount : Scan ρ Int64 := do
  return Int64.ofInt (← integer (-(2 ^ 63)) (2 ^ 63 - 1) "i64")

def Draft.step (room : Nat) (d : Draft) : String → Scan ρ Draft
  | "links" =>
    return { d with
      links := ← field "links" d.links (optional (listOf (ReferenceLink.scan parseUrl) room)) }
  | "count" => return { d with count := ← field "count" d.count (optional scanCount) }
  | "next_page_link" =>
    return { d with nextPage := ← field "next_page_link" d.nextPage (optional (Url.scan parseUrl)) }
  | "instance_annotations" =>
    return { d with
      annotations :=
        ← field "instance_annotations" d.annotations (listOf InstanceAnnotation.scan room) }
  | _ => do member skip; pure d

/-- The collection, absent fields having nothing in them. -/
def Draft.finish (d : Draft) : ReferenceLinks :=
  ⟨d.links.join, d.count.join, d.nextPage.join, d.annotations.getD []⟩

/-- Reads a collection. -/
def scan (room : Nat) : Scan ρ ReferenceLinks :=
  let expected := "struct EntityReferenceLinks"
  let items (room : Nat) : Scan ρ ReferenceLinks := do
    let links ← requiredItem 0 (expected ++ " with 4 elements")
      (optional (listOf (ReferenceLink.scan parseUrl) room))
    let count ← item? false (optional scanCount)
    let nextPage ← item? false (optional (Url.scan parseUrl))
    let annotations ← item? false (listOf InstanceAnnotation.scan room)
    pure (Draft.finish ⟨some links, count, nextPage, annotations⟩)
  record expected (fun room => return (← members (Draft.step parseUrl room) {}).finish) items room

end ReferenceLinks

end OData
