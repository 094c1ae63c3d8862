/-
# `OData.Json.Tree` — JSON as an ordered tree, and its compact text

Objects keep the order of their members and may repeat a name.  `compact` writes a tree without
blanks, by plain recursion on it; whatever else writes JSON is measured against it.
-/
import OData.Number.Notation
import OData.Text.Ascii
import OData.Text.Integer

namespace OData.Json

/-- A JSON value. -/
inductive Tree where
  | null
  | bool (b : Bool)
  | integer (n : Int)
  | double (d : Double)
  | string (s : String)
  | list (items : List Tree)
  | object (members : List (String × Tree))
deriving Repr

/-- The hexadecimal digits of a code below 256, padded to two. -/
def hex2 (n : Nat) : List Char := if n < 16 then '0' :: Text.hex n else Text.hex n

/-- A character in a string: marks, backslashes and ASCII controls are escaped, and nothing else. -/
def escapeChar (c : Char) : List Char :=
  match c with
  | '"' => ['\\', '"']
  | '\\' => ['\\', '\\']
  | '\x08' => ['\\', 'b']
  | '\t' => ['\\', 't']
  | '\n' => ['\\', 'n']
  | '\x0c' => ['\\', 'f']
  | '\r' => ['\\', 'r']
  | c => if c.toNat < 0x20 then ['\\', 'u', '0', '0'] ++ hex2 c.toNat else [c]

/-- A string as JSON. -/
def quoted (s : String) : String :=
  String.ofList ('"' :: s.toList.flatMap escapeChar ++ ['"'])

/-- A double as JSON.  There is no number for one that is not finite, and `null` is written for it. -/
def doubleText (d : Double) : String := (Notation.jsonNumber.text? d).getD "null"

namespace Tree

/-- The texts in `parts` with a comma between neighbours. -/
def commas : List String → String
  | [] => ""
  | [part] => part
  | part :: parts => part ++ "," ++ commas parts

mutual

/-- The text of a tree. -/
def compact : Tree → String
  | null => "null"
  | bool true => "true"
  | bool false => "false"
  | integer n => Text.decimal n
  | double d => doubleText d
  | string s => quoted s
  | list items => "[" ++ commas (compactItems items) ++ "]"
  | object members => "\x7b" ++ commas (compactMembers members) ++ "\x7d"

/-- The texts of items. -/
def compactItems : List Tree → List String
  | [] => []
  | item :: items => item.compact :: compactItems items

/-- The texts of members. -/
def compactMembers : List (String × Tree) → List String
  | [] => []
  | (name, value) :: members => (quoted name ++ ":" ++ value.compact) :: compactMembers members

end

theorem compactItems_eq_map (items : List Tree) : compactItems items = items.map compact := by
  induction items with
  | nil => rfl
  | cons item items ih => simp [compactItems, ih]

theorem compactMembers_eq_map (members : List (String × Tree)) :
    compactMembers members = members.map fun m => quoted m.1 ++ ":" ++ m.2.compact := by
  induction members with
  | nil => rfl
  | cons m members ih => simp [compactMembers, ih]

end Tree

end OData.Json
