/-
# `OData.Payload.Names` — the names of members that a payload has by itself

Names of annotations have an `@` in front.  Those that begin with `odata.` belong to the protocol.
-/
import OData.Text.Split

namespace OData.Payload

def context : String := "@odata.context"
def count : String := "@odata.count"
def id : String := "@odata.id"
def nextLink : String := "@odata.nextLink"
def value : String := "value"

/-- What the names of the protocol's own annotations begin with. -/
def reservedNamespace : String := "odata."

/-- A custom annotation may not have this name. -/
def isReserved (name : String) : Bool :=
  name.isEmpty || (Text.dropBeginning? reservedNamespace.toList name.toList).isSome

/-- The name of an annotation that a member is for. -/
def annotationName? (member : String) : Option String :=
  match member.toList with
  | '@' :: name => some (String.ofList name)
  | _ => none

end OData.Payload
