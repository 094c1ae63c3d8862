/-
# `OData.Payload.Write` — writing links

A payload is written whole before any of it is sent.  Every annotation is checked, also one that
the filter then leaves out: its name must not be reserved, and its owner must not have it already.
-/
import OData.Link.Basic
import OData.Payload.Names
import OData.Settings
import OData.Value.Writer

namespace OData.Payload

open Json

/-- A payload in the making, and the names of annotations so far. -/
structure Draft where
  writer : Writer
  seen : SeenNames

variable (settings : WriterSettings)

/-- Writes an annotation. -/
def writeOne (owner : AnnotationOwner) (d : Draft) (a : InstanceAnnotation) :
    Except PayloadError Draft :=
  if isReserved a.name then .error (.unfitName a.name)
  else match d.seen.insert owner a.name with
    | .error fault => .error (.repeatedName fault)
    | .ok seen =>
      if settings.annotationFilter.accepts a.name then
        .ok ⟨(d.writer.name ("@" ++ a.name)).value settings.ieee754Compatible a.value, seen⟩
      else .ok { d with seen }

/-- Writes the annotations of an owner. -/
def writeAnnotations (owner : AnnotationOwner) (d : Draft) (annotations : List InstanceAnnotation) :
    Except PayloadError Draft :=
  annotations.foldlM (writeOne settings owner) d

/-- Writes the members of a link. -/
def writeLinkMembers (owner : AnnotationOwner) (d : Draft) (l : ReferenceLink) :
    Except PayloadError Draft :=
  writeAnnotations settings owner
    { d with writer := (d.writer.name id).string l.url.text } l.annotations

/-- Writes links, the first of which has the number `index`. -/
def writeLinkItems (index : Nat) (d : Draft) : List ReferenceLink → Except PayloadError Draft
  | [] => .ok d
  | l :: ls => do
    let d ← writeLinkMembers settings (.link index) { d with writer := d.writer.startObject } l
    writeLinkItems (index + 1) { d with writer := d.writer.endObject } ls

/-- An object that names its context. -/
def begin : Draft :=
  ⟨(Writer.empty.startObject.name context).string settings.contextUrl, .empty⟩

/-- Writes the number of links, if it is known. -/
def writeCount (w : Writer) : Option Int64 → Writer
  | some n => (w.name count).int64 settings.ieee754Compatible n
  | none => w

/-- Writes where the collection goes on, if it does. -/
def writeNextLink (w : Writer) : Option Url → Writer
  | some url => (w.name nextLink).string url.text
  | none => w

/-- A collection of links in the making, all of it written. -/
def draftLinks (ls : ReferenceLinks) : Except PayloadError Writer := do
  let d := begin settings
  let d := { d with writer := writeCount settings d.writer ls.count }
  let d ← writeAnnotations settings .collection d ls.annotations
  let d := { d with writer := (d.writer.name value).startList }
  let d ← writeLinkItems settings 0 d ls.toList
  return (writeNextLink d.writer.endList ls.nextPage).endObject

/-- A link in the making, all of it written. -/
def draftLink (l : ReferenceLink) : Except PayloadError Writer := do
  let d ← writeLinkMembers settings (.link 0) (begin settings) l
  return d.writer.endObject

/-- The payload of a collection of links. -/
def writeLinks (ls : ReferenceLinks) : Except PayloadError String :=
  return (← draftLinks settings ls).text

/-- The payload of a single link. -/
def writeLink (l : ReferenceLink) : Except PayloadError String :=
  return (← draftLink settings l).text

end OData.Payload
