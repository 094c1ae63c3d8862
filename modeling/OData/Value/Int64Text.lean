/-
# `OData.Value.Int64Text` — 64-bit integers as strings

Some readers of JSON hold every number in a double, which cannot tell large integers apart.  For
them 64-bit integers are written as strings: `stringify` makes strings of them at every depth,
and `restore` makes integers again of the strings that are the decimal text of one.
-/
import OData.Value.Basic

namespace OData.Value

mutual

/-- The value with each 64-bit integer as the string of its decimal text. -/
def stringify : Value → Value
  | int64 n => string (Text.decimal n.toInt)
  | collection items => collection (stringifyItems items)
  | resource members => resource (stringifyMembers members)
  | v => v

@[inherit_doc stringify]
def stringifyItems : List Value → List Value
  | [] => []
  | item :: items => item.stringify :: stringifyItems items

@[inherit_doc stringify]
def stringifyMembers : List (String × Value) → List (String × Value)
  | [] => []
  | (name, value) :: members => (name, value.stringify) :: stringifyMembers members

end

/-- The integer whose canonical decimal text `s` is. -/
def canonicalInt64? (s : String) : Option Int64 :=
  (Text.int64? s).filter fun n => Text.decimal n.toInt == s

mutual

/-- The value with each string that is the decimal text of a 64-bit integer as that integer. -/
def restore : Value → Value
  | string s =>
    match canonicalInt64? s with
    | some n => int64 n
    | none => string s
  | collection items => collection (restoreItems items)
  | resource members => resource (restoreMembers members)
  | v => v

@[inherit_doc restore]
def restoreItems : List Value → List Value
  | [] => []
  | item :: items => item.restore :: restoreItems items

@[inherit_doc restore]
def restoreMembers : List (String × Value) → List (String × Value)
  | [] => []
  | (name, value) :: members => (name, value.restore) :: restoreMembers members

end

end OData.Value
