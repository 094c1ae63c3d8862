/-
# `OData.Link.Basic` — references to entities

A link is the URL of an entity with annotations.  A collection of links may be unpopulated, which
is not the same as empty: nobody has said yet which links there are.
-/
import OData.Annotation.Basic
import OData.Url.Basic

namespace OData

/-- A reference to an entity. -/
structure ReferenceLink where
  url : Url
  annotations : List InstanceAnnotation := []
deriving Repr

/-- A collection of references. -/
structure ReferenceLinks where
  /-- The links; none while nobody has said which. -/
  links : Option (List ReferenceLink) := none
  /-- The number of links that the server has. -/
  count : Option Int64 := none
  /-- Where the collection goes on. -/
  nextPage : Option Url := none
  annotations : List InstanceAnnotation := []
deriving Repr

/-- Elements that agree pairwise. -/
def eqList {α : Type} (eq : α → α → Bool) : List α → List α → Bool
  | [], [] => true
  | a :: as, b :: bs => eq a b && eqList eq as bs
  | _, _ => false

namespace ReferenceLink

/-- The link that a text says, without annotations. -/
def parse (parseUrl : Url.Parser) (url : String) : Except Url.Fault ReferenceLink :=
  return ⟨← parseUrl url, []⟩

def annotate (l : ReferenceLink) (a : InstanceAnnotation) : ReferenceLink :=
  { l with annotations := l.annotations ++ [a] }

/-- Equality of links. -/
def eq (a b : ReferenceLink) : Bool :=
  a.url == b.url && eqList InstanceAnnotation.eq a.annotations b.annotations

end ReferenceLink

namespace ReferenceLinks

/-- A populated collection. -/
def ofLinks (links : List ReferenceLink) : ReferenceLinks := { links := some links }

/-- The links, of which an unpopulated collection has none. -/
def toList (ls : ReferenceLinks) : List ReferenceLink := ls.links.getD []

def isPopulated (ls : ReferenceLinks) : Bool := ls.links.isSome

def annotate (ls : ReferenceLinks) (a : InstanceAnnotation) : ReferenceLinks :=
  { ls with annotations := ls.annotations ++ [a] }

/-- The collection with one more link, populated if it was not. -/
def push (ls : ReferenceLinks) (l : ReferenceLink) : ReferenceLinks :=
  { ls with links := some (ls.toList ++ [l]) }

/-- The collection with one more annotation on the link number `index`, if there is one. -/
def annotateLink? (ls : ReferenceLinks) (index : Nat) (a : InstanceAnnotation) :
    Option ReferenceLinks := do
  let links ← ls.links
  let l ← links[index]?
  return { ls with links := some (links.set index (l.annotate a)) }

/-- Equality of collections. -/
def eq (a b : ReferenceLinks) : Bool :=
  (match a.links, b.links with
    | some as, some bs => eqList ReferenceLink.eq as bs
    | none, none => true
    | _, _ => false) &&
  a.count == b.count && a.nextPage == b.nextPage &&
  eqList InstanceAnnotation.eq a.annotations b.annotations

end ReferenceLinks

end OData
