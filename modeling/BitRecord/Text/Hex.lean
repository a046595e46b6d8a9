import BitRecord.Text.Blank

/-!
# BitRecord.Text.Hex

Octets as hexadecimal text and bits as text of `0` and `1`.
-/

namespace BitRecord

namespace Hex

/-- The value of a hexadecimal digit of either case. -/
def digit? (c : Char) : Option Nat :=
  if '0' ≤ c ∧ c ≤ '9' then some (c.toNat - 48)
  else if 'A' ≤ c ∧ c ≤ 'F' then some (c.toNat - 55)
  else if 'a' ≤ c ∧ c ≤ 'f' then some (c.toNat - 87)
  else none

/-- The upper-case digit of a value below 16. -/
def digit (n : Nat) : Char :=
  if n < 10 then Char.ofNat (48 + n) else Char.ofNat (55 + n)

/-- The two digits of an octet, high half first. -/
def pair (octet : UInt8) : List Char :=
  [digit (octet.toNat / 16), digit (octet.toNat % 16)]

def encode (octets : List UInt8) : List Char := octets.flatMap pair

/-- The octet written by two characters: two digits, or a plus sign and one digit. -/
def pair? (high low : Char) : Option UInt8 :=
  if high = '+' then (digit? low).map UInt8.ofNat
  else do
    let h ← digit? high
    let l ← digit? low
    return UInt8.ofNat (16 * h + l)

def decode? : List Char → Option (List UInt8)
  | [] => some []
  | [_] => none
  | high :: low :: rest => do
    let octet ← pair? high low
    let octets ← decode? rest
    return octet :: octets

/-- Why hexadecimal text with blanks in it is refused. -/
inductive Fault where
  | odd
  | invalid (offset : Nat)
  /-- Two octets of the text that end inside a character. -/
  | split (offset : Nat)
  deriving DecidableEq

def Fault.message : Fault → String
  | .odd => "hex input has an odd number of digits"
  | .invalid offset => s!"invalid hex at offset {offset}"
  | .split offset => s!"byte index {offset + 2} is not a char boundary"

/-- Whether the first two UTF-8 octets of a text end inside a character. -/
def endsInside : List Char → Bool
  | [] => false
  | high :: rest => 2 < high.utf8Size ∨ high.utf8Size = 1 ∧ rest.head?.any (1 < ·.utf8Size)

/-- Why a text at `offset` does not start with two characters for an octet. -/
def refusal (offset : Nat) (text : List Char) : Fault :=
  if endsInside text then .split offset else .invalid offset

/-- Reads pairs from `offset` on and names the offset of the first one that is no octet. -/
def readPairs (offset : Nat) : List Char → Except Fault (List UInt8)
  | [] => .ok []
  | [c] => .error (refusal offset [c])
  | high :: low :: rest =>
    match pair? high low with
    | none => .error (refusal offset (high :: low :: rest))
    | some octet => do
      let octets ← readPairs (offset + 2) rest
      return octet :: octets

/-- Reads hexadecimal text, blanks left out. An odd number of UTF-8 octets is refused first. -/
def read (text : List Char) : Except Fault (List UInt8) :=
  let digits := text.filter fun c => !isBlank c
  if (String.ofList digits).utf8ByteSize % 2 ≠ 0 then .error .odd else readPairs 0 digits

end Hex

namespace Binary

def encode (bits : List Bool) : List Char := bits.map fun bit => if bit then '1' else '0'

def decode? : List Char → Option (List Bool)
  | [] => some []
  | c :: rest =>
    if c = '0' then (decode? rest).map (false :: ·)
    else if c = '1' then (decode? rest).map (true :: ·)
    else none

end Binary

end BitRecord
