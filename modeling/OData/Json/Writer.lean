/-
# `OData.Json.Writer` — writing JSON piece by piece

A writer holds the text so far and, innermost first, the containers that are open with the number
of parts each has.  Commas follow from that number: an item is counted when its value begins, a
member when its name is written.  Names are neither merged nor put in order.
-/
import OData.Json.Scan.Skip
import OData.Json.Tree

namespace OData.Json

/-- A container that is open, and how many parts it has so far. -/
structure Scope where
  bracket : Bracket
  parts : Nat
deriving DecidableEq, Repr

/-- JSON in the making. -/
structure Writer where
  text : String
  scopes : List Scope
deriving DecidableEq, Repr

namespace Writer

/-- Nothing written, nothing open. -/
def empty : Writer := ⟨"", []⟩

/-- Counts a part of the innermost container, and writes a comma if it is not the first. -/
def part (w : Writer) : Writer :=
  match w.scopes with
  | [] => w
  | scope :: outer =>
    { text := if 0 < scope.parts then w.text ++ "," else w.text
      scopes := { scope with parts := scope.parts + 1 } :: outer }

/-- Makes room for a value: in a list it is a part, in an object its name was. -/
def beforeValue (w : Writer) : Writer :=
  match w.scopes with
  | ⟨.list, _⟩ :: _ => w.part
  | _ => w

/-- Writes a value whose text is known. -/
def raw (w : Writer) (value : String) : Writer :=
  let w := w.beforeValue
  { w with text := w.text ++ value }

def startObject (w : Writer) : Writer :=
  let w := w.raw "\x7b"
  { w with scopes := ⟨.object, 0⟩ :: w.scopes }

def endObject (w : Writer) : Writer := ⟨w.text ++ "\x7d", w.scopes.tail⟩

def startList (w : Writer) : Writer :=
  let w := w.raw "["
  { w with scopes := ⟨.list, 0⟩ :: w.scopes }

def endList (w : Writer) : Writer := ⟨w.text ++ "]", w.scopes.tail⟩

/-- Writes the name of a member; what is written next is its value. -/
def name (w : Writer) (n : String) : Writer :=
  let w := w.part
  { w with text := w.text ++ quoted n ++ ":" }

def string (w : Writer) (s : String) : Writer := w.raw (quoted s)

end Writer

end OData.Json
