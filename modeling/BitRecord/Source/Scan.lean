import BitRecord.Json.Quote
import BitRecord.Source.Fault
import BitRecord.Text.Blank

/-!
# BitRecord.Source.Scan

Scanners for schema text, in the manner of a parsing expression grammar: ordered choice without
returning to an alternative that matched, and greedy repetition (`many`). Blanks and comments stand
before every word. A `word` may be the front part of a longer one, a `keyword` may not.
-/

namespace BitRecord.Source

/-- A scanner takes something from the front of a text, or fails and takes nothing. -/
abbrev Scan (α : Type) := StateT (List Char) Option α

/-- At most `n` repetitions, as many as match. -/
def manyWithin {α : Type} (p : Scan α) : Nat → Scan (List α)
  | 0, text => some ([], text)
  | n + 1, text =>
    match p text with
    | none => some ([], text)
    | some (a, rest) => (manyWithin p n rest).map fun (as, rest) => (a :: as, rest)

/-- As many repetitions as match; each takes at least one character. -/
def many {α : Type} (p : Scan α) : Scan (List α) := fun text => manyWithin p text.length text

def option {α : Type} (p : Scan α) : Scan (Option α) := fun text =>
  match p text with
  | none => some (none, text)
  | some (a, rest) => some (some a, rest)

/-- One or more `p` with `sep` between them. -/
def sepBy {α : Type} (p : Scan α) (sep : Scan Unit) : Scan (List α) := do
  let a ← p
  let as ← many (do sep; p)
  return a :: as

/-- One or more `p` with `sep` between them and perhaps behind the last. -/
def listing {α : Type} (p : Scan α) (sep : Scan Unit) : Scan (List α) := do
  let as ← sepBy p sep
  let _ ← option sep
  return as

def isLetter (c : Char) : Bool := c.isAlpha || c = '_'

def isIdentChar (c : Char) : Bool := c.isAlphanum || c = '_'

mutual

/-- A text without the blanks and comments in front of it. -/
def trim : List Char → List Char
  | [] => []
  | c :: rest =>
    if c = ' ' ∨ c = '\t' ∨ c = '\r' ∨ c = '\n' then trim rest
    else
      match c, rest with
      | '/', '/' :: comment => trimComment comment
      | _, _ => c :: rest

/-- A text behind a comment, which ends with its line. -/
def trimComment : List Char → List Char
  | [] => []
  | c :: rest => if c = '\n' then trim rest else trimComment rest

end

/-- Takes the characters of `spelling` and nothing else. -/
def word (spelling : String) : Scan Unit := fun text =>
  (after? spelling.toList (trim text)).map fun rest => ((), rest)

/-- Takes a word that is not the front part of a longer one. -/
def keyword (spelling : String) : Scan Unit := fun text =>
  match after? spelling.toList (trim text) with
  | some (c :: rest) => if isIdentChar c then none else some ((), c :: rest)
  | some [] => some ((), [])
  | none => none

/-- The characters of a nonempty run that starts with a `start` and goes on with `inner`. -/
def run (start inner : Char → Bool) : Scan (List Char) := fun text =>
  match trim text with
  | c :: rest =>
    if start c then some (c :: rest.takeWhile inner, rest.dropWhile inner) else none
  | [] => none

def ident : Scan String := do
  let name ← run isLetter isIdentChar
  return String.ofList name

/-- A number below `2 ^ 32`. -/
def number : Scan (Built Nat) := do
  let digits ← run Char.isDigit Char.isDigit
  return (Decimal.word32 digits).mapError (.number (String.ofList digits))

/-- The characters of an integer: digits behind an optional minus sign. -/
def integerText : Scan (List Char) := fun text =>
  match trim text with
  | '-' :: rest =>
    if rest.head?.any Char.isDigit then
      some ('-' :: rest.takeWhile Char.isDigit, rest.dropWhile Char.isDigit)
    else none
  | trimmed => run Char.isDigit Char.isDigit trimmed

def integer : Scan (Built Int) := do
  let digits ← integerText
  return (Decimal.int64 digits).mapError (.integer (String.ofList digits))

/-- The characters of a string up to its closing quote, which is the first one that is not behind an
escaping backslash; and what follows. -/
def stringText : List Char → Option (List Char × List Char)
  | [] => none
  | '"' :: rest => some (['"'], rest)
  | '\\' :: c :: rest => (stringText rest).map fun (text, rest) => ('\\' :: c :: text, rest)
  | c :: rest => (stringText rest).map fun (text, rest) => (c :: text, rest)

def string : Scan (Built String) := fun text =>
  match trim text with
  | '"' :: rest =>
    (stringText rest).map fun (body, rest) =>
      let literal := '"' :: body
      match Json.Quote.decode? literal with
      | some content => (.ok (String.ofList content), rest)
      | none => (.error (.stringLiteral (String.ofList literal)), rest)
  | _ => none

/-- The characters between single quotes, all of them `digit`, with the letter `mark` behind. -/
def marked (digit : Char → Bool) (mark : Char) : Scan (List Char) := fun text =>
  match trim text with
  | '\x27' :: rest =>
    match rest.dropWhile digit with
    | '\x27' :: m :: behind => if m = mark then some (rest.takeWhile digit, behind) else none
    | _ => none
  | _ => none

/-- Octets such as `'DEAD'O`; the digits have to come in pairs. -/
def octets : Scan (Built (List UInt8)) := do
  let digits ← marked (fun c => (Hex.digit? c).isSome) 'O'
  match Hex.decode? digits with
  | some data => return .ok data
  | none => return .error (.oddOctets ("'" ++ String.ofList digits ++ "'O"))

/-- Bits such as `'0110'B`. -/
def bits : Scan (List Bool) := do
  let digits ← marked (fun c => c = '0' || c = '1') 'B'
  return digits.map (· = '1')

end BitRecord.Source
