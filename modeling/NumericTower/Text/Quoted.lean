import NumericTower.Text.Glyph
import NumericTower.Numeral.Digit

/-!
# Quoted text

A text between double quotes. Quotes, backslashes and the usual controls have a letter after a
backslash; any other character that does not show by itself is written by its code point.
-/

namespace NumericTower.Text

/-- Whether a character is written by its code point: it shows nothing, or it is a mark that would join
the character before it. -/
def needsCodePoint (c : Char) : Bool :=
  (isGraphemeExtend c && !isExtendingLetter c) || hasNoGlyph c

/-- One character inside quotes. -/
def quoteChar (c : Char) : List Char :=
  match c with
  | '"' => ['\\', '"']
  | '\\' => ['\\', '\\']
  | '\n' => ['\\', 'n']
  | '\r' => ['\\', 'r']
  | '\t' => ['\\', 't']
  | '\x00' => ['\\', '0']
  | c =>
    if needsCodePoint c then
      ['\\', 'u', '\x7b'] ++ (Numeral.toDigits 16 c.toNat).map Numeral.digitChar ++ ['\x7d']
    else [c]

/-- The text between double quotes. -/
def quote (s : String) : String :=
  String.ofList ('"' :: s.toList.flatMap quoteChar ++ ['"'])

end NumericTower.Text
