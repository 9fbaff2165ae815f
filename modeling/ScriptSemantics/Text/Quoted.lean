import ScriptSemantics.Text.Combining
import ScriptSemantics.Text.Unprintable

/-!
# Quoted text

A string between double quotes, with escapes for what would not show.

## Main Definitions

* `quoteChar` — how one character is written
* `quote` — a whole string

## Design Notes

Quotes, backslashes and the four usual control characters have short escapes.  Combining marks and
unprintable characters are written by their code in hexadecimal, wherever they stand.  A single
quote is written as it is.
-/

namespace ScriptSemantics.Text

/-- A character by its code. -/
def codeEscape (c : Char) : String :=
  "\\u\x7b" ++ String.ofList (Nat.toDigits 16 c.toNat) ++ "\x7d"

/-- How a character is written between double quotes. -/
def quoteChar (c : Char) : String :=
  if c = '\x00' then "\\0"
  else if c = '\t' then "\\t"
  else if c = '\n' then "\\n"
  else if c = '\r' then "\\r"
  else if c = '"' then "\\\""
  else if c = '\\' then "\\\\"
  else if isCombiningMark c || !isPrintable c then codeEscape c
  else c.toString

/-- A string between double quotes. -/
def quote (text : String) : String :=
  "\"" ++ String.join (text.toList.map quoteChar) ++ "\""

end ScriptSemantics.Text
