import BitRecord.Text.Decimal

/-!
# BitRecord.Json.Number

JSON numbers: their grammar (`parts?`), and the range of values they may have (`isFinite`). A number
has to be finite in double precision, so `1e400` is none and `1e-400` is one. Its value is taken from a
significand of at most 64 bits: digits that do not fit into it only count for the exponent, and
significand and power of ten are rounded one by one before they are multiplied.
-/

namespace BitRecord.Json.Number

/-- A number as written: its digits before and behind the point, and the exponent. -/
structure Parts where
  whole : List Char
  fraction : List Char
  exponent : Int

/-- A run of digits and what follows it. -/
def digits (text : List Char) : List Char × List Char :=
  (text.takeWhile Char.isDigit, text.dropWhile Char.isDigit)

/-- A leading zero stands alone. -/
def whole? (text : List Char) : Option (List Char × List Char) :=
  match text with
  | '0' :: rest => some (['0'], rest)
  | c :: _ => if c.isDigit then some (digits text) else none
  | [] => none

/-- A point needs a digit behind it. -/
def fraction? (text : List Char) : Option (List Char × List Char) :=
  match text with
  | '.' :: rest =>
    match digits rest with
    | ([], _) => none
    | found => some found
  | _ => some ([], text)

/-- The digits of an exponent, behind its sign. -/
def magnitude? (text : List Char) : Option (Int × List Char) :=
  match digits text with
  | ([], _) => none
  | (ds, rest) => some (Decimal.value ds, rest)

def exponent? (text : List Char) : Option (Int × List Char) :=
  match text with
  | c :: rest =>
    if c = 'e' ∨ c = 'E' then
      match rest with
      | '-' :: rest => (magnitude? rest).map fun (n, rest) => (-n, rest)
      | '+' :: rest => magnitude? rest
      | rest => magnitude? rest
    else some (0, text)
  | [] => some (0, [])

/-- The parts of a text that is a number from its first to its last character. -/
def parts? (text : List Char) : Option Parts := do
  let unsigned := match text with
    | '-' :: rest => rest
    | _ => text
  let (whole, rest) ← whole? unsigned
  let (fraction, rest) ← fraction? rest
  let (exponent, rest) ← exponent? rest
  if rest.isEmpty then some { whole, fraction, exponent } else none

/-- `n` rounded to 53 significant bits, a tie to the even neighbour. -/
def round53 (n : Nat) : Nat :=
  let extra := n.log2 - 52
  let kept := n >>> extra
  let cut := n - kept <<< extra
  let half := (1 <<< extra) / 2
  if half < cut ∨ (half = cut ∧ 0 < cut ∧ kept % 2 = 1) then (kept + 1) <<< extra
  else kept <<< extra

/-- Appends digits to a significand as long as it stays below `2 ^ 64`; the digits left over. -/
def extend (significand : Nat) : List Char → Nat × List Char
  | [] => (significand, [])
  | c :: rest =>
    let next := 10 * significand + (c.toNat - 48)
    if next < 18446744073709551616 then extend next rest else (significand, c :: rest)

/-- The least integer that rounds to infinity in double precision. -/
def overflow : Nat := 1 <<< 1024 - 1 <<< 970

/-- Whether the value is finite in double precision. Of the digits, those that make a significand
below `2 ^ 64` count; digits left over before the point raise the exponent. -/
def isFinite (p : Parts) : Bool :=
  let (significand, left) := extend 0 p.whole
  let (significand, ignored) := extend significand p.fraction
  let exponent := left.length - (p.fraction.length - ignored.length) + p.exponent
  significand = 0 ∨ exponent < 0 ∨
    (exponent ≤ 308 ∧ round53 significand * round53 (Nat.pow 10 exponent.toNat) < overflow)

/-- Whether a text is a number with a finite value. -/
def isValid (text : List Char) : Bool :=
  match parts? text with
  | some p => isFinite p
  | none => false

end BitRecord.Json.Number
