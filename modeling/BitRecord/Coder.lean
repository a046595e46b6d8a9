import BitRecord.Json.Decode
import BitRecord.Json.Encode
import BitRecord.Raw.Decode

/-!
# BitRecord.Coder

Coding the values of a schema's types. Faults name the type, and inside it the place.
-/

namespace BitRecord

inductive Coding where
  | raw
  | json
  | ber
  | per
  | xer
  | text
  deriving DecidableEq

namespace Coding

def name : Coding → String
  | .raw => "RAW"
  | .json => "JSON"
  | .ber => "BER"
  | .per => "PER"
  | .xer => "XER"
  | .text => "TEXT"

def all : List Coding := [.raw, .json, .ber, .per, .xer, .text]

/-- A name that no coding has. -/
structure Unknown where
  name : String

def Unknown.message (u : Unknown) : String := s!"unknown coding type '{u.name}'"

/-- The coding of a name in any case. -/
def parse (text : String) : Except Unknown Coding :=
  match all.find? fun c => c.name = text.toUpper with
  | some c => .ok c
  | none => .error ⟨text.toUpper⟩

end Coding

structure Coder where
  schema : Resolved
  /-- The bit order of types that do not set one. -/
  order : BitOrder := .lsb
  /-- JSON is indented. -/
  pretty : Bool := false
  /-- A JSON member that the type does not have is only a token that does not fit. -/
  silent : Bool := false

namespace Coder

def specOf (c : Coder) (type : String) : Result Spec :=
  match c.schema.schema.typeNamed? type with
  | some _ => .ok (.named type)
  | none => fail (.unknownType type)

def activity (verb type : String) : String := s!"While {verb} type '{type}': "

def encodeRaw (c : Coder) (type : String) (v : Value) : Result (List UInt8) := do
  let spec ← c.specOf type
  let octets ← within (activity "RAW-encoding" type) (Raw.encode c.schema c.order spec v)
  return octets.toList

/-- Decodes a value from the front of the data: the value, and the octets it takes in part or in
whole. -/
def extent (c : Coder) (type : String) (data : List UInt8) : Result (Value × Nat) := do
  let spec ← c.specOf type
  let (v, bits) ← within (activity "RAW-decoding" type)
    (Raw.decode c.schema c.order spec data.toArray)
  return (v, octetsFor bits)

def decodeRaw (c : Coder) (type : String) (data : List UInt8) : Result Value := do
  let (v, used) ← c.extent type data
  if used < data.length then fail (.extraOctets type (data.length - used))
  return v

def encodeJson (c : Coder) (type : String) (v : Value) : Result String := do
  let spec ← c.specOf type
  let text ← within (activity "JSON-encoding" type) (Json.encode c.schema c.pretty spec v)
  return String.ofList text

def decodeJson (c : Coder) (type text : String) : Result Value := do
  let _ ← c.specOf type
  within (activity "JSON-decoding" type) (Json.decode c.schema c.silent type text.toList)

/-- The data of a value. JSON is text in UTF-8. -/
def encode (c : Coder) (coding : Coding) (type : String) (v : Value) : Result (List UInt8) :=
  match coding with
  | .raw => c.encodeRaw type v
  | .json => (c.encodeJson type v).map Utf8.octets
  | _ => fail (.unsupportedCoding .encode type)

/-- The value that takes up all of the data. -/
def decode (c : Coder) (coding : Coding) (type : String) (data : List UInt8) : Result Value :=
  match coding with
  | .raw => c.decodeRaw type data
  | .json =>
    match Utf8.read data with
    | .ok text => c.decodeJson type text
    | .error fault => fail (.notUtf8 fault)
  | _ => fail (.unsupportedCoding .decode type)

end Coder

end BitRecord
