import BitRecord.Text.Printable

/-!
# BitRecord.Text.Quoted

Text between double quotes, as it stands in log text and messages. Quotes and backslashes are
escaped, the usual control characters have names, and what does not show as itself is written as
its code point.
-/

namespace BitRecord.Quoted

/-- The digits of a code point in lower case, without leading zeros. -/
def codePoint (c : Char) : String := String.ofList (Nat.toDigits 16 c.toNat)

def escape (c : Char) : String :=
  if c = '"' then "\\\""
  else if c = '\\' then "\\\\"
  else if c = '\x00' then "\\0"
  else if c = '\t' then "\\t"
  else if c = '\n' then "\\n"
  else if c = '\r' then "\\r"
  else if isPrintable c then c.toString
  else "\\u\x7b" ++ codePoint c ++ "\x7d"

def encode (text : String) : String :=
  "\"" ++ String.join (text.toList.map escape) ++ "\""

end BitRecord.Quoted
