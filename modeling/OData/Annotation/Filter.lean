/-
# `OData.Annotation.Filter` — which annotations are read or written

A filter is a list of patterns, separated by commas: `*` for every name, `Namespace.*` for the
names in a namespace and below it, and anything else for itself.  A pattern with a minus sign in
front excludes.  Of the patterns that match a name the most specific one decides, and among
equally specific ones an excluding one.
-/
import OData.Json.Scan.Scalar
import OData.Json.Tree
import OData.Text.Blank
import OData.Text.Split

namespace OData

open OData.Text

/-- How narrow a pattern is.  An exact one is narrower than a namespace of any length. -/
inductive Specificity where
  | any
  /-- The length of a namespace with its dot. -/
  | within (length : Nat)
  | exact
deriving DecidableEq, Repr

namespace Specificity

/-- The order of specificity. -/
def rank : Specificity → Nat × Nat
  | any => (0, 0)
  | within length => (1, length)
  | exact => (2, 0)

/-- The first one is less specific than the second. -/
def lt (a b : Specificity) : Bool :=
  a.rank.1 < b.rank.1 || (a.rank.1 == b.rank.1 && a.rank.2 < b.rank.2)

end Specificity

/-- The names that a pattern is about. -/
inductive PatternTarget where
  | all
  | under (name : String)
  | exact (name : String)
deriving DecidableEq, Repr

/-- A pattern of a filter. -/
structure AnnotationPattern where
  target : PatternTarget
  exclude : Bool
deriving DecidableEq, Repr

/-- A text that is no pattern. -/
structure InvalidPattern where
  text : String
deriving DecidableEq, Repr

def InvalidPattern.message (p : InvalidPattern) : String := "invalid annotation filter: " ++ p.text

namespace AnnotationPattern

/-- What a pattern without its minus sign is about. -/
def parseTarget? (body : List Char) : Option PatternTarget :=
  if body = ['*'] then some .all
  else match dropEnding? ['.', '*'] body with
    | some name =>
      if name.isEmpty || name.contains '*' then none else some (.under (String.ofList name))
    | none =>
      if body.isEmpty || body.contains '*' then none else some (.exact (String.ofList body))

/-- The pattern that a text without outer blanks says. -/
def parse (text : List Char) : Except InvalidPattern AnnotationPattern :=
  let (exclude, body) :=
    match text with
    | '-' :: rest => (true, trim rest)
    | _ => (false, text)
  match parseTarget? body with
  | some target => .ok ⟨target, exclude⟩
  | none => .error ⟨String.ofList text⟩

/-- How specific a pattern is that matches `name`. -/
def specificity? (p : AnnotationPattern) (name : String) : Option Specificity :=
  match p.target with
  | .all => some .any
  | .under space =>
    match dropBeginning? space.toList name.toList with
    | some ('.' :: _) => some (.within (1 + space.utf8ByteSize))
    | _ => none
  | .exact exact => if exact = name then some .exact else none

/-- The text of a pattern. -/
def text (p : AnnotationPattern) : String :=
  (if p.exclude then "-" else "") ++
    match p.target with
    | .all => "*"
    | .under space => space ++ ".*"
    | .exact exact => exact

end AnnotationPattern

/-- Which annotations are read or written. -/
structure AnnotationFilter where
  patterns : List AnnotationPattern
deriving DecidableEq, Repr

namespace AnnotationFilter

/-- Every annotation. -/
def all : AnnotationFilter := ⟨[⟨.all, false⟩]⟩

/-- No annotation. -/
def none : AnnotationFilter := ⟨[]⟩

/-- The filter that a text says; a blank one lets nothing pass. -/
def parse (text : String) : Except InvalidPattern AnnotationFilter :=
  if (trim text.toList).isEmpty then .ok none
  else do
    return ⟨← (splitOn ',' text.toList).mapM fun p => AnnotationPattern.parse (trim p)⟩

/-- The decision of the patterns looked at so far: the specificity of those that decide, and whether one
of them excludes. -/
abbrev Verdict := Option (Specificity × Bool)

/-- The decision when one more pattern is looked at. -/
def consider (name : String) (verdict : Verdict) (p : AnnotationPattern) : Verdict :=
  match p.specificity? name, verdict with
  | Option.none, _ => verdict
  | some s, Option.none => some (s, p.exclude)
  | some s, some (best, exclude) =>
    if s.lt best then some (best, exclude)
    else if s = best then some (best, exclude || p.exclude)
    else some (s, p.exclude)

/-- An annotation with this name passes the filter. -/
def accepts (f : AnnotationFilter) (name : String) : Bool :=
  match f.patterns.foldl (consider name) Option.none with
  | some (_, exclude) => !exclude
  | Option.none => false

theorem accepts_all (name : String) : all.accepts name = true := rfl

/-- The text of a filter. -/
def text (f : AnnotationFilter) : String := ",".intercalate (f.patterns.map (·.text))

/-- The JSON form. -/
def toTree (f : AnnotationFilter) : Json.Tree := .string f.text

/-- Reads a filter.  A string that is none is noticed when it has been left. -/
def scan {ρ : Type} : Json.Scan ρ AnnotationFilter := do
  let s ← Json.Scan.anyString
  match parse s with
  | .ok f => pure f
  | .error fault => Json.Scan.misfit (.rule fault.message)

end AnnotationFilter

end OData
