import Monofloat.Text.Printable

/-!
# Quoted text

A name inside quotes, with the characters that would not show escaped.
-/

namespace Monofloat

/-- `\u{hex}`. -/
def codePointEscape (c : Char) : String :=
  "\\u\x7b" ++ String.ofList (Nat.toDigits 16 c.toNat) ++ "\x7d"

def escapeChar (c : Char) : String :=
  if c = '"' then "\\\""
  else if c = '\\' then "\\\\"
  else if c = '\n' then "\\n"
  else if c = '\r' then "\\r"
  else if c = '\t' then "\\t"
  else if c = '\x00' then "\\0"
  else if isPrintable c then c.toString
  else codePointEscape c

/-- The text between double quotes. -/
def quoted (text : String) : String := "\"" ++ String.join (text.toList.map escapeChar) ++ "\""

/-- The quoted texts of a list between brackets. -/
def quotedList (texts : List String) : String := "[" ++ ", ".intercalate (texts.map quoted) ++ "]"

end Monofloat
