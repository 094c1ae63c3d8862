/-
# `OData.Json.Scan` — moving over a JSON text

A `Scan` moves a cursor over the bytes of a text and yields a value or a fault.  The cursor keeps
where it got to also when a fault stops it, since a misfit is located at the place where the
value around it ends or, if that end was not reached, as near to it as one can get.
-/
import OData.Json.Byte
import OData.Json.Fault

namespace OData.Json

/-- What is left of a text, and the place where it begins. -/
structure Cursor where
  rest : List UInt8
  place : Position
deriving DecidableEq, Repr

namespace Cursor

/-- The cursor in front of `bytes`. -/
def start (bytes : List UInt8) : Cursor := ⟨bytes, ⟨1, 0⟩⟩

/-- The cursor behind the next byte; at the end of the text it stays. -/
def next (c : Cursor) : Cursor :=
  match c.rest with
  | [] => c
  | b :: rest => ⟨rest, c.place.after b⟩

/-- The longest run of bytes with the property `p`, and the cursor behind it. -/
def span (p : UInt8 → Bool) (bytes : List UInt8) (place : Position) : List UInt8 × Cursor :=
  match bytes with
  | [] => ([], ⟨[], place⟩)
  | b :: rest =>
    if p b then
      let (run, c) := span p rest (place.after b)
      (b :: run, c)
    else ([], ⟨b :: rest, place⟩)

end Cursor

/-- A reading step that may refuse for reasons of type `ρ`. -/
abbrev Scan (ρ : Type) := EStateM (Fault ρ) Cursor

namespace Scan

variable {ρ : Type} {α : Type}

/-- The next byte, which stays. -/
def peek : Scan ρ (Option UInt8) := fun c => .ok c.rest.head? c

/-- The next byte, which is passed. -/
def next : Scan ρ (Option UInt8) := fun c => .ok c.rest.head? c.next

/-- Passes the next byte. -/
def advance : Scan ρ Unit := fun c => .ok () c.next

/-- A flaw in front of the cursor. -/
def flawHere (flaw : Flaw) : Scan ρ α := fun c => .error (.flaw flaw c.place) c

/-- A flaw in the next byte, which counts as passed. -/
def flawNext (flaw : Flaw) : Scan ρ α := fun c => .error (.flaw flaw c.next.place) c

/-- A misfit, not yet located. -/
def misfit (m : Misfit) : Scan ρ α := throw (.misfit m none)

/-- A refusal. -/
def refuse (reason : ρ) : Scan ρ α := throw (.refusal reason)

/-- The run of bytes with the property `p` that starts here; it is passed. -/
def takeWhile (p : UInt8 → Bool) : Scan ρ (List UInt8) := fun c =>
  let (run, c) := Cursor.span p c.rest c.place
  .ok run c

/-- Passes blanks and shows what comes next. -/
def space : Scan ρ (Option UInt8) := do
  let _ ← takeWhile Byte.isSpace
  peek

/-- The value that `scan` reads; a misfit is located where the value was left. -/
def located (scan : Scan ρ α) : Scan ρ α := fun c =>
  match scan c with
  | .ok a c => .ok a c
  | .error fault c => .error (fault.placed c.place) c

/-- Reads a bracketed value: `body` its inside, and `close` passes the bracket.  After a fault inside,
closing is tried all the same, so that a misfit is located behind the value if the fault was the
last thing in it. -/
def closing (close : Scan ρ Unit) (body : Scan ρ α) : Scan ρ α := fun c =>
  match body c with
  | .ok a c => located (do close; pure a) c
  | .error fault c =>
    match close c with
    | .ok _ c | .error _ c => .error (fault.placed c.place) c

/-- The whole of `bytes` as one value, with blanks around it. -/
def run (scan : Scan ρ α) (bytes : List UInt8) : Except (Fault ρ) α :=
  let whole : Scan ρ α := do
    let a ← scan
    match ← space with
    | some _ => flawNext .trailingText
    | none => pure a
  match whole (.start bytes) with
  | .ok a _ => .ok a
  | .error fault _ => .error fault

end Scan

end OData.Json
