/-
# `OData.MediaType.Text` — media types as text

`MediaType.parse` reads `type/subtype;name=value;…`.  Blanks around the parts do not count, empty
segments are passed over, and a value may be quoted: inside quotation marks a semicolon separates
nothing, and a backslash stands for the character behind it.  `MediaType.text` quotes a value only
where it is no token.
-/
import OData.MediaType.Basic
import OData.Text.Blank
import OData.Text.Quoted
import OData.Text.Split

namespace OData.MediaType

open OData.Text

/-- The characters of tokens besides letters and digits. -/
def tokenMarks : List Char := "!#$%&'*+-.^_\x60|~".toList

def isTokenChar (c : Char) : Bool := c.isAlphanum || tokenMarks.contains c

/-- A token: a nonempty run of letters, digits and a few marks. -/
def isToken (cs : List Char) : Bool := !cs.isEmpty && cs.all isTokenChar

/-- Where a character stands with regard to quotation marks. -/
inductive Quotation where
  | outside
  | inside
  /-- Inside, behind a backslash that is not itself escaped. -/
  | escaped
deriving DecidableEq, Repr

/-- Where the character behind `c` stands. -/
def Quotation.after (c : Char) : Quotation → Quotation
  | outside => if c = '"' then inside else outside
  | inside => if c = '\\' then escaped else if c = '"' then outside else inside
  | escaped => inside

/-- The parts between the separators outside quotation marks, the text beginning at `q`. -/
def splitUnquotedFrom (sep : Char) (q : Quotation) : List Char → List (List Char)
  | [] => [[]]
  | c :: cs =>
    if c = sep ∧ q = .outside then [] :: splitUnquotedFrom sep .outside cs
    else match splitUnquotedFrom sep (q.after c) cs with
      | [] => [[c]]
      | part :: parts => (c :: part) :: parts

/-- The parts of a text between the separators outside quotation marks. -/
def splitUnquoted (sep : Char) (cs : List Char) : List (List Char) :=
  splitUnquotedFrom sep .outside cs

/-- Why a text is no media type; each with the part of it that is at fault. -/
inductive Fault where
  | missingSlash (text : String)
  | badType (text : String)
  | missingValue (segment : String)
  | badName (name : String)
  | duplicateName (name : String)
  | unterminated (value : String)
deriving DecidableEq, Repr

def Fault.message : Fault → String
  | missingSlash text => "invalid media type: missing '/' in " ++ quote text
  | badType text => "invalid media type: invalid type or subtype in " ++ quote text
  | missingValue segment => "invalid media type: parameter without value: " ++ quote segment
  | badName name => "invalid media type: invalid parameter name: " ++ quote name
  | duplicateName name => "invalid media type: duplicate parameter: " ++ quote name
  | unterminated value => "invalid media type: unterminated quoted value: " ++ quote value

/-- A text without the backslashes that escape the character behind them; a last one escapes nothing. -/
def unescape : List Char → List Char
  | '\\' :: c :: cs => c :: unescape cs
  | ['\\'] => []
  | c :: cs => c :: unescape cs
  | [] => []

/-- A value without its quotation marks, if it begins with one. -/
def unquote (value : List Char) : Except Fault (List Char) :=
  match value with
  | '"' :: inner =>
    match dropEnding? ['"'] inner with
    | some inner => .ok (unescape inner)
    | none => .error (.unterminated (String.ofList value))
  | _ => .ok value

/-- Reads the parameter that a segment without outer blanks says. -/
def parseParameter (m : MediaType) (segment : List Char) : Except Fault MediaType := do
  let some (name, value) := splitOnce '=' segment
    | throw (.missingValue (String.ofList segment))
  let name := trim name
  if !isToken name then throw (.badName (String.ofList name))
  if (m.get? (String.ofList name)).isSome then throw (.duplicateName (String.ofList name))
  return m.insert (String.ofList name) (String.ofList (← unquote (trim value)))

/-- Reads a segment; a blank one says nothing. -/
def parseSegment (m : MediaType) (segment : List Char) : Except Fault MediaType :=
  if (trim segment).isEmpty then .ok m else parseParameter m (trim segment)

/-- Reads `type/subtype`, a part of `text`. -/
def parseType (text : String) (fullType : List Char) : Except Fault MediaType := do
  let some (typeName, subtype) := splitOnce '/' (trim fullType) | throw (.missingSlash text)
  let (typeName, subtype) := (trim typeName, trim subtype)
  if !isToken typeName || !isToken subtype then throw (.badType text)
  return new (String.ofList typeName) (String.ofList subtype)

/-- The media type that a text says. -/
def parse (text : String) : Except Fault MediaType := do
  match splitUnquoted ';' text.toList with
  | [] => throw (.missingSlash text)
  | fullType :: segments =>
    let m ← parseType text fullType
    segments.foldlM parseSegment m

/-- A character inside quotation marks. -/
def escapeChar (c : Char) : List Char := if c = '"' ∨ c = '\\' then ['\\', c] else [c]

/-- A value as it stands if it is a token, and quoted otherwise. -/
def valueText (value : String) : List Char :=
  if isToken value.toList then value.toList
  else '"' :: value.toList.flatMap escapeChar ++ ['"']

/-- A parameter with the semicolon in front of it. -/
def parameterText (p : String × String) : List Char :=
  ';' :: p.1.toList ++ '=' :: valueText p.2

/-- The text of a media type. -/
def text (m : MediaType) : String :=
  String.ofList (m.typeName.toList ++ '/' :: m.subtype.toList ++
    m.parameters.flatMap parameterText)

end OData.MediaType
