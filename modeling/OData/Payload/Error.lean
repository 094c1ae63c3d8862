/-
# `OData.Payload.Error` — what can go wrong with a payload

A payload that is not JSON is told apart from one that is JSON of the wrong shape: the first kind
of error has a flaw with its place, the second a cause in the terms of the payload.
-/
import OData.Annotation.Filter
import OData.Annotation.SeenNames
import OData.Encoding
import OData.Url.Host

namespace OData

/-- How the members of a payload differ from those that it should have. -/
inductive ShapeFault where
  | repeatedMember (name : String)
  | repeatedValue
  | repeatedId (owner : AnnotationOwner)
  | missingValue
  | missingId (owner : AnnotationOwner)
  /-- A member that is neither known nor an annotation; of the collection, or of a link. -/
  | unexpectedProperty (name : String) (link : Option AnnotationOwner)
  /-- A name that custom annotations may not have. -/
  | reservedName (name : String) (owner : AnnotationOwner)
  | badUrl (name : String) (fault : Url.Fault)
deriving DecidableEq, Repr

def ShapeFault.message : ShapeFault → String
  | repeatedMember name => s!"duplicate '{name}'"
  | repeatedValue => "duplicate 'value' property"
  | repeatedId owner => s!"duplicate '@odata.id' on {owner.text}"
  | missingValue => "missing 'value' property"
  | missingId owner => s!"missing '@odata.id' on {owner.text}"
  | unexpectedProperty name none => s!"unexpected property '{name}'"
  | unexpectedProperty name (some owner) => s!"unexpected property '{name}' on {owner.text}"
  | reservedName name owner => s!"unexpected annotation '@{name}' on {owner.text}"
  | badUrl name fault => s!"invalid URL in '{name}': {fault.message}"

/-- Why a reader turns a payload down whose text is JSON so far. -/
inductive Refusal where
  | shape (fault : ShapeFault)
  | repeatedName (fault : RepeatedName)
deriving DecidableEq, Repr

/-- Why a payload was not written or read. -/
inductive PayloadError where
  | repeatedName (fault : RepeatedName)
  | unfitName (name : String)
  | wrongShape (fault : ShapeFault)
  /-- A value is not of the kind that its member should have. -/
  | misfit (fault : Json.Misfit) (place : Option Json.Position)
  | notJson (flaw : Json.Flaw) (place : Json.Position)
  /-- The stream failed, for the reason that it gives. -/
  | stream (reason : String)
  | tooLarge (limit : UInt64)
  | invalidFilter (fault : InvalidPattern)
  | unsupportedEncoding (encoding : Encoding)
deriving DecidableEq, Repr

namespace PayloadError

def message : PayloadError → String
  | repeatedName fault => fault.message
  | unfitName name => s!"invalid instance annotation name: '{name}'"
  | wrongShape fault => "malformed payload: " ++ fault.message
  | misfit fault place => "malformed payload: " ++ Json.located fault.message place
  | notJson flaw place => s!"JSON error: {flaw.message} at {place.text}"
  | stream reason => "IO error: " ++ reason
  | tooLarge limit => s!"payload too large: more than {limit.toNat} bytes"
  | invalidFilter fault => fault.message
  | unsupportedEncoding encoding => "unsupported encoding: " ++ encoding.name

/-- The error of a fault that stopped a reader. -/
def ofFault : Json.Fault Refusal → PayloadError
  | .flaw flaw place => notJson flaw place
  | .misfit fault place => misfit fault place
  | .refusal (.shape fault) => wrongShape fault
  | .refusal (.repeatedName fault) => repeatedName fault

end PayloadError

end OData
