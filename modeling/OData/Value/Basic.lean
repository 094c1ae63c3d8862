/-
# `OData.Value.Basic` — protocol values

The values that annotations carry.  A resource keeps the order of its members.

Integers compare by their number and not by their width, because a payload does not say which
width was meant; doubles compare as numbers do, so that one which is not a number equals nothing.
-/
import OData.Json.Tree

namespace OData

/-- A protocol value. -/
inductive Value where
  | null
  | boolean (b : Bool)
  | int32 (n : Int32)
  | int64 (n : Int64)
  | double (d : Double)
  | string (s : String)
  | collection (items : List Value)
  | resource (members : List (String × Value))
deriving Repr

namespace Value

def isNull : Value → Bool
  | null => true
  | _ => false

def asBool? : Value → Option Bool
  | boolean b => some b
  | _ => none

/-- The number of an integer of either width. -/
def asInt? : Value → Option Int
  | int32 n => some n.toInt
  | int64 n => some n.toInt
  | _ => none

def asString? : Value → Option String
  | string s => some s
  | _ => none

/-- The integer `n`, in the narrower width if it fits. -/
def integer (n : Int64) : Value :=
  if -(2 ^ 31) ≤ n.toInt ∧ n.toInt < 2 ^ 31 then int32 n.toInt32 else int64 n

mutual

/-- Equality of values. -/
def eq : Value → Value → Bool
  | int32 m, b => b.asInt? == some m.toInt
  | int64 m, b => b.asInt? == some m.toInt
  | null, null => true
  | boolean a, boolean b => a == b
  | double a, double b => a.eq b
  | string a, string b => a == b
  | collection a, collection b => eqItems a b
  | resource a, resource b => eqMembers a b
  | _, _ => false

/-- Equality of items, in order. -/
def eqItems : List Value → List Value → Bool
  | [], [] => true
  | a :: as, b :: bs => a.eq b && eqItems as bs
  | _, _ => false

/-- Equality of members, in order. -/
def eqMembers : List (String × Value) → List (String × Value) → Bool
  | [], [] => true
  | (m, a) :: as, (n, b) :: bs => m == n && a.eq b && eqMembers as bs
  | _, _ => false

end

/-- To an integer, those of either width with the same number are equal. -/
theorem eq_integer_iff {a b : Value} {n : Int} (h : a.asInt? = some n) :
    a.eq b = true ↔ b.asInt? = some n := by
  cases a <;> cases h <;> simp [eq]

/-- The protocol's spelling of a double that is not finite. -/
def nonFiniteLiteral? : Double → Option String
  | .nan => some "NaN"
  | .infinite false => some "INF"
  | .infinite true => some "-INF"
  | .finite _ _ => none

/-- A double as JSON: a string if it is not finite. -/
def doubleTree (d : Double) : Json.Tree :=
  match nonFiniteLiteral? d with
  | some literal => .string literal
  | none => .double d

mutual

/-- The JSON form of a value. -/
def toTree : Value → Json.Tree
  | null => .null
  | boolean b => .bool b
  | int32 n => .integer n.toInt
  | int64 n => .integer n.toInt
  | double d => doubleTree d
  | string s => .string s
  | collection items => .list (toTrees items)
  | resource members => .object (toMemberTrees members)

@[inherit_doc toTree]
def toTrees : List Value → List Json.Tree
  | [] => []
  | item :: items => item.toTree :: toTrees items

@[inherit_doc toTree]
def toMemberTrees : List (String × Value) → List (String × Json.Tree)
  | [] => []
  | (name, value) :: members => (name, value.toTree) :: toMemberTrees members

end

end Value

end OData
