/-
# `OData.ContextUrl` — the context that a payload names

The context URL says which kind of payload a service has sent.  It is made from the root of the
service, whose slashes at the end do not count.
-/
import OData.Url.Basic

namespace OData.ContextUrl

/-- The root of a service without slashes at the end. -/
def trimmedRoot (root : Url) : String :=
  String.ofList ((root.text.toList.reverse.dropWhile (· == '/')).reverse)

/-- The context of a collection of links. -/
def referenceLinks (root : Url) : String := trimmedRoot root ++ "/$metadata#Collection($ref)"

/-- The context of a single link. -/
def referenceLink (root : Url) : String := trimmedRoot root ++ "/$metadata#$ref"

end OData.ContextUrl
