/-
# `OData.Json.Scan.Container` — reading lists and objects

A container is read part by part, with a state that each part may change; nothing is collected
on the way, so that a repeated name is as visible as a new one.  `room` is the number of
containers that may still be opened inside one another.
-/
import OData.Json.Scan.Scalar

namespace OData.Json.Scan

variable {ρ : Type} {α σ : Type}

/-- How deep containers may nest. -/
def deepest : Nat := 127

/-- Passes the end of a list. -/
def closeList : Scan ρ Unit := do
  match ← space with
  | some Byte.closeBracket => advance
  | some Byte.comma =>
    advance
    match ← space with
    | some Byte.closeBracket => flawNext .trailingComma
    | _ => flawNext .trailingText
  | some _ => flawNext .trailingText
  | none => flawNext .endInList

/-- Passes the end of an object. -/
def closeObject : Scan ρ Unit := do
  match ← space with
  | some Byte.closeBrace => advance
  | some Byte.comma => flawNext .trailingComma
  | some _ => flawNext .trailingText
  | none => flawNext .endInObject

/-- The container whose bracket comes next, `inside` being given the room that is left in it. -/
def opening (close : Scan ρ Unit) (room : Nat) (inside : Nat → Scan ρ α) : Scan ρ α :=
  match room with
  | 0 => flawNext .tooDeep
  | room + 1 => do
    advance
    closing close (inside room)

def listOpening (room : Nat) (inside : Nat → Scan ρ α) : Scan ρ α := opening closeList room inside

def objectOpening (room : Nat) (inside : Nat → Scan ρ α) : Scan ρ α :=
  opening closeObject room inside

/-- Is there another item?  Passes the comma in front of it, which the first one has not. -/
def nextItem (first : Bool) : Scan ρ Bool := do
  match ← space with
  | none => flawNext .endInList
  | some Byte.closeBracket => pure false
  | some b =>
    if first then pure true
    else if b = Byte.comma then do
      advance
      match ← space with
      | none => flawNext .endInValue
      | some Byte.closeBracket => flawNext .trailingComma
      | some _ => pure true
    else flawNext .expectedListEnd

/-- Passes the opening mark of a name. -/
def openName : Scan ρ Unit := do
  match ← peek with
  | some Byte.quote => advance
  | _ => flawNext .keyNotString

/-- The name of the next member, if there is one. -/
def nextName (first : Bool) : Scan ρ (Option String) := do
  match ← space with
  | none => flawNext .endInObject
  | some Byte.closeBrace => pure none
  | some b =>
    if first then do
      openName
      return some (← stringBody)
    else if b = Byte.comma then do
      advance
      match ← space with
      | none => flawNext .endInValue
      | some Byte.closeBrace => flawNext .trailingComma
      | some _ =>
        openName
        return some (← stringBody)
    else flawNext .expectedObjectEnd

/-- Passes the colon between a name and its value. -/
def colon : Scan ρ Unit := do
  match ← space with
  | some Byte.colon => advance
  | some _ => flawNext .expectedColon
  | none => flawNext .endInObject

/-- The value of a member whose name has been read. -/
def member (scan : Scan ρ α) : Scan ρ α := do
  colon
  scan

/-- Reads the items that are left, each with `step`.  An item takes a byte of the text, so that its length
suffices as `fuel`. -/
def itemsFrom (step : σ → Scan ρ σ) : (fuel : Nat) → (first : Bool) → σ → Scan ρ σ
  | 0, _, _ => flawNext .endInList
  | fuel + 1, first, s => do
    if ← nextItem first then
      let s ← step s
      itemsFrom step fuel false s
    else pure s

/-- Reads the members that are left, each with `step`, which is given the name and passes the colon. -/
def membersFrom (step : σ → String → Scan ρ σ) : (fuel : Nat) → (first : Bool) → σ → Scan ρ σ
  | 0, _, _ => flawNext .endInObject
  | fuel + 1, first, s => do
    match ← nextName first with
    | none => pure s
    | some name =>
      let s ← step s name
      membersFrom step fuel false s

/-- Reads the inside of a list from the state `s`. -/
def items (step : σ → Scan ρ σ) (s : σ) : Scan ρ σ := fun c =>
  itemsFrom step c.rest.length true s c

/-- Reads the inside of an object from the state `s`. -/
def members (step : σ → String → Scan ρ σ) (s : σ) : Scan ρ σ := fun c =>
  membersFrom step c.rest.length true s c

/-- The items of a list, in order. -/
def collect (scan : Scan ρ α) : Scan ρ (List α) := do
  let reversed ← items (fun acc => return (← scan) :: acc) []
  pure reversed.reverse

/-- A list, its items read by `item` with the room that is left. -/
def listOf (item : Nat → Scan ρ α) (room : Nat) : Scan ρ (List α) := located do
  match ← start with
  | .list => listOpening room fun room => collect (item room)
  | other => mismatch other "a sequence"

end OData.Json.Scan
