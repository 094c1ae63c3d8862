/-
# `OData.Text.Blank` — blanks, and text without its outer blanks

A blank is a character with the property `White_Space`.  Media types and annotation filters
ignore blanks around their parts, so the set has to be the whole property and not the four
blanks of JSON: a part may be set off by an ideographic space.
-/
namespace OData.Text

/-- Characters with the property `White_Space`. -/
def isBlank (c : Char) : Bool :=
  let n := c.toNat
  (0x09 ≤ n && n ≤ 0x0d) || n == 0x20 || n == 0x85 || n == 0xa0 || n == 0x1680 ||
    (0x2000 ≤ n && n ≤ 0x200a) || n == 0x2028 || n == 0x2029 || n == 0x202f || n == 0x205f ||
    n == 0x3000

/-- The text without the blanks in front of it. -/
def trimStart (cs : List Char) : List Char := cs.dropWhile isBlank

/-- The text without the blanks at its end. -/
def trimEnd (cs : List Char) : List Char := (cs.reverse.dropWhile isBlank).reverse

/-- The text without the blanks on both sides of it. -/
def trim (cs : List Char) : List Char := trimEnd (trimStart cs)

end OData.Text
