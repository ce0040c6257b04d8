import PCode.Text.Hex
import PCode.Text.Printable

/-!
# Quoted text

Names in messages stand between double quotes.  Printable characters are kept,
a quote or backslash is escaped, and every other character is written as a
named or hexadecimal escape.
-/

namespace PCode.Text

/-- A character inside double quotes. -/
def quoteChar (c : Char) : List Char :=
  if c = '"' ∨ c = '\\' then ['\\', c]
  else if isPrintable c then [c]
  else match c.toNat with
    | 7 => ['\\', 'a']
    | 8 => ['\\', 'b']
    | 12 => ['\\', 'f']
    | 10 => ['\\', 'n']
    | 13 => ['\\', 'r']
    | 9 => ['\\', 't']
    | 11 => ['\\', 'v']
    | n =>
      if n < 32 ∨ n = 127 then '\\' :: 'x' :: hexDigits 'a' 2 n
      else if n < 65536 then '\\' :: 'u' :: hexDigits 'a' 4 n
      else '\\' :: 'U' :: hexDigits 'a' 8 n

/-- A text between double quotes. -/
def quote (s : String) : String :=
  String.ofList ('"' :: s.toList.flatMap quoteChar ++ ['"'])

end PCode.Text
