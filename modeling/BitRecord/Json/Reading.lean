import BitRecord.Json.Token
import BitRecord.Fault
import BitRecord.Schema.Basic
import BitRecord.Text.Decimal
import BitRecord.Text.Hex

/-!
# BitRecord.Json.Reading

Reading values from the front of a text.
-/

namespace BitRecord.Json

inductive Stop where
  /-- The token does not start a value of the type. -/
  | invalidToken
  | fault (f : Fault)
  /-- Reading comes back to the same type at the same place. -/
  | endless

/-- The result of reading something. -/
abbrev Reading := Except Stop

/-- Reads a value of a spec. `inMap` says that it is a member of an object, and `chosen` is the
alternative of a union, where rules have chosen one. -/
abbrev Decoder :=
  (spec : Spec) → (inMap : Bool) → (chosen : Option Nat) → (text : List Char) →
    Reading (Value × List Char)

def refuse {α : Type} (cause : Cause) : Reading α := .error (.fault { cause })

/-- Reading at a place: its faults carry the label. -/
def inside {α : Type} (label : String) : Reading α → Reading α
  | .error (.fault f) => .error (.fault (f.under label))
  | other => other

/-- A token that does not start a value is a fault here. -/
def orRefuse {α : Type} (cause : Cause) : Reading α → Reading α
  | .error .invalidToken => refuse cause
  | other => other

/-- What a token stops with where another one is needed to start a value. -/
def unexpected {α : Type} (token : Token) : Reading α :=
  if token = .error then refuse .badToken else .error .invalidToken

/-- The text behind a token that has to come first. -/
def opening (token : Token) (text : List Char) : Reading (List Char) :=
  let (first, rest) := Token.next text
  if first = token then .ok rest else unexpected first

/-- The integer that a number writes: digits behind an optional minus sign, in the 64-bit range. -/
def integer? (text : List Char) : Option Int :=
  let digits := match text with
    | '-' :: rest => rest
    | _ => text
  if digits.all Char.isDigit then (Decimal.int64 text).toOption else none

/-- What was found in the text of a token, or the cause to refuse it. -/
def orCause {α : Type} (cause : Cause) : Option α → Reading α
  | some a => .ok a
  | none => refuse cause

/-- The scalar that a token stands for. -/
def scalarOf (type : String) (t : ScalarSpec) (token : Token) : Reading Scalar :=
  match t, token with
  | .integer .., .number text =>
    (orCause (.badNumber text type) (integer? text.toList)).map Scalar.int
  | .boolean _, .bool b => .ok (.bool b)
  | .enumerated _ items, .str text =>
    if items.any fun item => item.1 = text then .ok (.item text) else refuse (.badItem text type)
  | .octetString _, .str text =>
    (orCause (.badHex text type) (Hex.decode? text.toList)).map Scalar.octets
  | .bitString _, .str text =>
    (orCause (.badBits text type) (Binary.decode? text.toList)).map Scalar.bits
  | .charString _, .str text => .ok (.chars text)
  | _, token => unexpected token

def readScalar (type : String) (t : ScalarSpec) (text : List Char) :
    Reading (Value × List Char) := do
  let (token, rest) := Token.next text
  let s ← scalarOf type t token
  return (.scalar s, rest)

end BitRecord.Json
