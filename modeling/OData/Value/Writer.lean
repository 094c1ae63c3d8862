/-
# `OData.Value.Writer` — writing protocol values piece by piece

`Writer.value` writes a value into JSON in the making.  With `int64AsString` every 64-bit integer
is written as a string.
-/
import OData.Json.Writer
import OData.Value.Basic

namespace OData.Json.Writer

/-- Writes a 64-bit integer. -/
def int64 (int64AsString : Bool) (w : Writer) (n : Int64) : Writer :=
  if int64AsString then w.raw (quoted (Text.decimal n.toInt)) else w.raw (Text.decimal n.toInt)

/-- Writes a double. -/
def double (w : Writer) (d : Double) : Writer :=
  match Value.nonFiniteLiteral? d with
  | some literal => w.string literal
  | none => w.raw (doubleText d)

mutual

/-- Writes a value. -/
def value (int64AsString : Bool) (w : Writer) : Value → Writer
  | .null => w.raw "null"
  | .boolean true => w.raw "true"
  | .boolean false => w.raw "false"
  | .int32 n => w.raw (Text.decimal n.toInt)
  | .int64 n => w.int64 int64AsString n
  | .double d => w.double d
  | .string s => w.string s
  | .collection items => (values int64AsString w.startList items).endList
  | .resource members => (memberValues int64AsString w.startObject members).endObject

/-- Writes the items of a collection. -/
def values (int64AsString : Bool) (w : Writer) : List Value → Writer
  | [] => w
  | item :: items => values int64AsString (value int64AsString w item) items

/-- Writes the members of a resource. -/
def memberValues (int64AsString : Bool) (w : Writer) : List (String × Value) → Writer
  | [] => w
  | (n, v) :: members => memberValues int64AsString (value int64AsString (w.name n) v) members

end

end OData.Json.Writer
