/-
# `OData.Payload.Read` — reading links

A payload is read member by member, in the order of its text, and the first thing that is wrong
with it ends the reading.  Annotations are checked before their value is read, also those that the
filter then leaves out.  Which texts are URLs is left to `parseUrl`.
-/
import OData.Link.Basic
import OData.Payload.Names
import OData.Settings
import OData.Value.Int64Text

namespace OData.Payload

open Json Json.Scan

variable (parseUrl : Url.Parser) (settings : ReaderSettings)

/-- The annotations of an owner read so far, the last one first. -/
abbrev Annotations := List InstanceAnnotation

/-- The value of an annotation as the reader wants it. -/
def annotationValue (v : Value) : Value := if settings.ieee754Compatible then v.restore else v

/-- Reads the annotation of a name. -/
def readOne (room : Nat) (owner : AnnotationOwner) (name : String) (seen : SeenNames)
    (annotations : Annotations) : Scan Refusal (SeenNames × Annotations) := do
  if isReserved name then refuse (.shape (.reservedName name owner))
  match seen.insert owner name with
  | .error fault => refuse (.repeatedName fault)
  | .ok seen =>
    let v ← member (Value.scan room)
    if settings.annotationFilter.accepts name then
      pure (seen, ⟨name, annotationValue settings v⟩ :: annotations)
    else pure (seen, annotations)

/-- Reads the URL that the member `name` has for its value. -/
def readUrl (name : String) : Scan Refusal Url := do
  let text ← member anyString
  match parseUrl text with
  | .ok url => pure url
  | .error fault => refuse (.shape (.badUrl name fault))

/-- Passes the context, which may stand once. -/
def readContext (seen : Bool) : Scan Refusal Unit := do
  if seen then refuse (.shape (.repeatedMember context))
  member skip

/-- A link as far as it has been read. -/
structure LinkDraft where
  seen : SeenNames
  seenContext : Bool := false
  url : Option Url := none
  annotations : Annotations := []

/-- Reads a member of a link; one that stands alone may name its context. -/
def readLinkMember (room : Nat) (owner : AnnotationOwner) (alone : Bool) (d : LinkDraft)
    (name : String) : Scan Refusal LinkDraft := do
  if name = id then
    if d.url.isSome then refuse (.shape (.repeatedId owner))
    return { d with url := some (← readUrl parseUrl name) }
  else if name = context ∧ alone then
    readContext d.seenContext
    return { d with seenContext := true }
  else match annotationName? name with
    | some annotation =>
      let (seen, annotations) ←
        readOne settings room owner annotation d.seen d.annotations
      return { d with seen, annotations }
    | none => refuse (.shape (.unexpectedProperty name (some owner)))

/-- The link whose members have been read. -/
def LinkDraft.finish (owner : AnnotationOwner) (d : LinkDraft) :
    Scan Refusal (SeenNames × ReferenceLink) :=
  match d.url with
  | some url => pure (d.seen, ⟨url, d.annotations.reverse⟩)
  | none => refuse (.shape (.missingId owner))

/-- Reads a link. -/
def readLinkObject (room : Nat) (owner : AnnotationOwner) (alone : Bool) (seen : SeenNames) :
    Scan Refusal (SeenNames × ReferenceLink) := located do
  match ← start with
  | .object => objectOpening room fun room => do
    let d ← members (readLinkMember parseUrl settings room owner alone) { seen }
    d.finish owner
  | other => mismatch other "an entity reference link object"

/-- Reads a link behind those in the list, which is in reverse order. -/
def readLinkItem (room : Nat) (state : SeenNames × List ReferenceLink) :
    Scan Refusal (SeenNames × List ReferenceLink) := do
  let (seen, links) := state
  let (seen, link) ← readLinkObject parseUrl settings room (.link links.length) false seen
  pure (seen, link :: links)

/-- Reads a list of links. -/
def readLinkList (room : Nat) (seen : SeenNames) :
    Scan Refusal (SeenNames × List ReferenceLink) := located do
  match ← start with
  | .list => listOpening room fun room => do
    let (seen, links) ← items (readLinkItem parseUrl settings room) (seen, [])
    pure (seen, links.reverse)
  | other => mismatch other "an array of entity reference links"

/-- The number of links that a JSON value without parts says: a whole number, or a string that spells
one. -/
def countOfScalar : Scalar → Except Misfit Int64
  | .number (.integer n) =>
    match Text.int64OfInt? n with
    | some n => .ok n
    | none => .error (.rule s!"count {n} out of range")
  | .string s =>
    match Text.int64? s with
    | some n => .ok n
    | none => .error (.rule s!"invalid count '{s}'")
  | other => .error (.wrongType other.found "an integer count")

/-- Reads the number of links. -/
def readCount (room : Nat) : Scan Refusal Int64 := located do
  match ← start with
  | .scalar s =>
    match countOfScalar s with
    | .ok n => pure n
    | .error m => misfit m
  | .list => listOpening room fun _ => mismatch .list "an integer count"
  | .object => objectOpening room fun _ => mismatch .object "an integer count"

/-- A collection of links as far as it has been read. -/
structure LinksDraft where
  seen : SeenNames := .empty
  seenContext : Bool := false
  count : Option Int64 := none
  nextPage : Option Url := none
  links : Option (List ReferenceLink) := none
  annotations : Annotations := []

/-- Reads a member of a collection of links. -/
def readLinksMember (room : Nat) (d : LinksDraft) (name : String) : Scan Refusal LinksDraft := do
  if name = context then
    readContext d.seenContext
    return { d with seenContext := true }
  else if name = count then
    if d.count.isSome then refuse (.shape (.repeatedMember name))
    return { d with count := some (← member (readCount room)) }
  else if name = nextLink then
    if d.nextPage.isSome then refuse (.shape (.repeatedMember name))
    return { d with nextPage := some (← readUrl parseUrl name) }
  else if name = value then
    if d.links.isSome then refuse (.shape .repeatedValue)
    let (seen, links) ← member (readLinkList parseUrl settings room d.seen)
    return { d with seen, links := some links }
  else match annotationName? name with
    | some annotation =>
      let (seen, annotations) ←
        readOne settings room .collection annotation d.seen d.annotations
      return { d with seen, annotations }
    | none => refuse (.shape (.unexpectedProperty name none))

/-- The collection whose members have been read. -/
def LinksDraft.finish (d : LinksDraft) : Scan Refusal ReferenceLinks :=
  match d.links with
  | some links => pure ⟨some links, d.count, d.nextPage, d.annotations.reverse⟩
  | none => refuse (.shape .missingValue)

/-- Reads a collection of links. -/
def readLinksObject (room : Nat) : Scan Refusal ReferenceLinks := located do
  match ← start with
  | .object => objectOpening room fun room => do
    (← members (readLinksMember parseUrl settings room) {}).finish
  | other => mismatch other "an entity reference links object"

/-- The collection of links that a payload says. -/
def readLinks (bytes : List UInt8) : Except PayloadError ReferenceLinks :=
  (run (readLinksObject parseUrl settings deepest) bytes).mapError .ofFault

/-- The single link that a payload says. -/
def readLink (bytes : List UInt8) : Except PayloadError ReferenceLink :=
  (run (do return (← readLinkObject parseUrl settings deepest (.link 0) true .empty).2) bytes).mapError
    .ofFault

end OData.Payload
