import BitRecord.Coder
import BitRecord.Source.Grammar

/-!
# BitRecord.Command

The command line: a schema file, a type and what to do with a value of it.
-/

namespace BitRecord.Command

/-- What the arguments ask for. -/
structure Request where
  asJson : Bool
  msb : Bool
  pretty : Bool
  file : String
  type : String
  action : String
  input : String

structure Outcome where
  exit : Nat
  stdout : String := ""
  stderr : String := ""

def usage : String :=
  "Usage: rawcodec SCHEMA.dsl TYPE (encode-json JSON | decode HEX [--json]) [--msb] [--pretty]"

/-- The request of a command line. Each option is taken out once, wherever it stands; four arguments
have to be left. -/
def Request.parse (args : List String) : Option Request :=
  let words := ((args.erase "--json").erase "--msb").erase "--pretty"
  match words with
  | [file, type, action, input] =>
    some
      { asJson := args.contains "--json", msb := args.contains "--msb"
        pretty := args.contains "--pretty", file, type, action, input }
  | _ => none

/-- Why a request fails, and what lies behind it. -/
structure Failure where
  message : String
  cause : Option String := none
  exit : Nat := 1

def Failure.text (f : Failure) : String :=
  match f.cause with
  | none => s!"Error: {f.message}\n"
  | some cause => s!"Error: {f.message}\n\nCaused by:\n    {cause}\n"

/-- Turns a fault of one part into a failure of the request. -/
def orFail {ε α : Type} (message : ε → String) : Except ε α → Except Failure α
  | .ok a => .ok a
  | .error e => .error { message := message e }

def Failure.ofFault (f : Fault) : Failure := { message := f.text, exit := if f.isPanic then 101 else 1 }

def Failure.ofHex : Hex.Fault → Failure
  | .odd => { message := Hex.Fault.odd.message }
  | .invalid offset =>
    { message := (Hex.Fault.invalid offset).message, cause := some "invalid digit found in string" }
  | .split offset => { message := (Hex.Fault.split offset).message, exit := 101 }

def octets (text : String) : Except Failure (List UInt8) :=
  (Hex.read text.toList).mapError Failure.ofHex

def Request.coder (q : Request) (source : Except String String) : Except Failure Coder := do
  match source with
  | .error cause => throw { message := s!"reading {q.file}", cause }
  | .ok text =>
    let schema ← orFail Source.Fault.message (Source.parse text)
    let resolved ← orFail SchemaFault.message schema.resolve
    return { schema := resolved, order := if q.msb then .msb else .lsb, pretty := q.pretty }

/-- What a request prints, given the contents of its schema file. -/
def Request.answer (q : Request) (source : Except String String) : Except Failure String := do
  let coder ← q.coder source
  if q.action = "encode-json" then
    let v ← (coder.decodeJson q.type q.input).mapError .ofFault
    let data ← (coder.encodeRaw q.type v).mapError .ofFault
    return String.ofList (Hex.encode data)
  else if q.action = "decode" then
    let data ← octets q.input
    let v ← (coder.decodeRaw q.type data).mapError .ofFault
    if q.asJson then (coder.encodeJson q.type v).mapError .ofFault
    else return v.textOf coder.schema.schema q.type
  else throw { message := s!"unknown command '{q.action}'" }

/-- What a request prints, and how it exits. -/
def Request.outcome (q : Request) (source : Except String String) : Outcome :=
  match q.answer source with
  | .ok text => { exit := 0, stdout := text ++ "\n" }
  | .error failure => { exit := failure.exit, stderr := failure.text }

/-- The outcome of a command line that asks for nothing. -/
def Outcome.help : Outcome := { exit := 2, stderr := usage ++ "\n" }

/-- The outcome of a command line. `read` gives the content of a file or the reason why there is
none. -/
def run (read : String → Except String String) (args : List String) : Outcome :=
  match Request.parse args with
  | some q => q.outcome (read q.file)
  | none => .help

end BitRecord.Command
