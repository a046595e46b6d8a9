import BitRecord.Text.Hex

/-!
# BitRecord.Json.Quote

JSON strings. `encode` escapes quotes, backslashes and the characters below 32, with one letter where
there is one and with `\u00xx` in lower case otherwise, and nothing else. `body?` takes every escape of
the standard; it refuses characters below 32 that are not escaped, and one half of a surrogate pair.
-/

namespace BitRecord.Json.Quote

/-- The lower-case hexadecimal digit of a value below 16. -/
def lowDigit (n : Nat) : Char :=
  if n < 10 then Char.ofNat (48 + n) else Char.ofNat (87 + n)

def escape (c : Char) : List Char :=
  if c = '"' then ['\\', '"']
  else if c = '\\' then ['\\', '\\']
  else if c = '\x08' then ['\\', 'b']
  else if c = '\x0c' then ['\\', 'f']
  else if c = '\n' then ['\\', 'n']
  else if c = '\r' then ['\\', 'r']
  else if c = '\t' then ['\\', 't']
  else if c.toNat < 32 then
    ['\\', 'u', '0', '0', lowDigit (c.toNat / 16), lowDigit (c.toNat % 16)]
  else [c]

def encode (text : List Char) : List Char := '"' :: text.flatMap escape ++ ['"']

/-- The character that a one-letter escape stands for. -/
def named? (c : Char) : Option Char :=
  if c = '"' then some '"'
  else if c = '\\' then some '\\'
  else if c = '/' then some '/'
  else if c = 'b' then some '\x08'
  else if c = 'f' then some '\x0c'
  else if c = 'n' then some '\n'
  else if c = 'r' then some '\r'
  else if c = 't' then some '\t'
  else none

/-- The number written by four hexadecimal digits. -/
def unit? (a b c d : Char) : Option Nat := do
  let a ← Hex.digit? a
  let b ← Hex.digit? b
  let c ← Hex.digit? c
  let d ← Hex.digit? d
  return 4096 * a + 256 * b + 16 * c + d

def isHigh (unit : Nat) : Bool := 0xD800 ≤ unit && unit ≤ 0xDBFF

def isLow (unit : Nat) : Bool := 0xDC00 ≤ unit && unit ≤ 0xDFFF

/-- The character of a surrogate pair. -/
def paired (high low : Nat) : Char :=
  Char.ofNat (0x10000 + 1024 * (high - 0xD800) + (low - 0xDC00))

/-- Puts a character in front of what was read. -/
def push (c : Char) : List Char × List Char → List Char × List Char
  | (text, rest) => (c :: text, rest)

/-- Reads a string from behind its opening quote: the text, and what follows the closing quote. -/
def body? : List Char → Option (List Char × List Char)
  | [] => none
  | '"' :: rest => some ([], rest)
  | '\\' :: 'u' :: a :: b :: c :: d :: rest =>
    match unit? a b c d with
    | none => none
    | some unit =>
      if isLow unit then none
      else if isHigh unit then
        match rest with
        | '\\' :: 'u' :: a :: b :: c :: d :: rest =>
          match unit? a b c d with
          | none => none
          | some low => if isLow low then (body? rest).map (push (paired unit low)) else none
        | _ => none
      else (body? rest).map (push (Char.ofNat unit))
  | '\\' :: c :: rest =>
    match named? c with
    | none => none
    | some e => (body? rest).map (push e)
  | c :: rest => if c.toNat < 32 then none else (body? rest).map (push c)

/-- The text of a complete string, quotes included. -/
def decode? : List Char → Option (List Char)
  | '"' :: rest =>
    match body? rest with
    | some (text, []) => some text
    | _ => none
  | _ => none

end BitRecord.Json.Quote
