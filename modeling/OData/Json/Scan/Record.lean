/-
# `OData.Json.Scan.Record` — reading records and variants

A record is an object with named fields or a list of its fields in order; `record` reads either.
A variant is a name, or an object with the name for its only member and the content for its value.
-/
import OData.Json.Scan.Container
import OData.Json.Scan.Skip

namespace OData.Json.Scan

variable {ρ : Type} {α κ : Type}

/-- A record called `expected`, from an object or from a list. -/
def record (expected : String) (fields items : Nat → Scan ρ α) (room : Nat) : Scan ρ α := located do
  match ← start with
  | .object => objectOpening room fields
  | .list => listOpening room items
  | other => mismatch other expected

/-- The value of the field `name`, which has not been read before if `slot` is empty. -/
def field (name : String) (slot : Option α) (scan : Scan ρ α) : Scan ρ (Option α) :=
  match slot with
  | some _ => misfit (.duplicateField name)
  | none => return some (← member scan)

/-- The value of a field that a record must have. -/
def required (name : String) (slot : Option α) : Scan ρ α :=
  match slot with
  | some a => pure a
  | none => misfit (.missingField name)

/-- The next item of a list that stands for a record, if there is one. -/
def item? (first : Bool) (scan : Scan ρ α) : Scan ρ (Option α) := do
  if ← nextItem first then return some (← scan) else pure none

/-- The item number `index` of a list that stands for the record called `expected`. -/
def requiredItem (index : Nat) (expected : String) (scan : Scan ρ α) : Scan ρ α := do
  match ← item? (index == 0) scan with
  | some a => pure a
  | none => misfit (.wrongLength index expected)

/-- One of the names of a variant, and what it is the name of. -/
def variantName (known : List (String × κ)) : Scan ρ κ := located do
  let name ← anyString
  match known.lookup name with
  | some k => pure k
  | none => misfit (.unknownVariant name (known.map (·.1)))

/-- A variant of one of the `known` names, as `bare` makes it from the name alone or `content` reads the
content of an object. -/
def variant (known : List (String × κ)) (bare content : κ → Scan ρ α) (room : Nat) : Scan ρ α := do
  match ← space with
  | none => flawNext .endInValue
  | some Byte.quote => bare (← variantName known)
  | some Byte.openBrace =>
    if room = 0 then flawNext .tooDeep
    advance
    match ← space with
    | none => flawNext .endInObject
    | some Byte.quote =>
      let name ← variantName known
      colon
      let a ← content name
      match ← space with
      | some Byte.closeBrace => advance; pure a
      | some _ => flawHere .expectedValue
      | none => flawHere .endInObject
    | some Byte.closeBrace => flawNext .expectedValue
    | some _ => flawNext .keyNotString
  | some _ => flawNext .expectedValue

end OData.Json.Scan
