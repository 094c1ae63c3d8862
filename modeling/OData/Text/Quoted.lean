/-
# `OData.Text.Quoted` — text quoted in a message

A message shows text between quotation marks, with everything escaped that a reader could not
see or could mistake: `quote` writes ASCII controls by their usual letters where they have one,
and other characters without a shape, or that would attach to their neighbour, by their code.
-/
import OData.Text.Ascii
import OData.Text.Combining
import OData.Text.Unprintable

namespace OData.Text

/-- One character between quotation marks. -/
def quoteChar (c : Char) : List Char :=
  match c with
  | '\x00' => ['\\', '0']
  | '\t' => ['\\', 't']
  | '\n' => ['\\', 'n']
  | '\r' => ['\\', 'r']
  | '"' => ['\\', '"']
  | '\\' => ['\\', '\\']
  | c =>
    if isCombining c || isUnprintable c then ['\\', 'u', '\x7b'] ++ hex c.toNat ++ ['\x7d']
    else [c]

/-- The text between quotation marks. -/
def quote (text : String) : String :=
  String.ofList ('"' :: text.toList.flatMap quoteChar ++ ['"'])

end OData.Text
