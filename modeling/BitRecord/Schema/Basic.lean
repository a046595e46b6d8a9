import BitRecord.Bits.Order

/-!
# BitRecord.Schema.Basic

Type definitions and the attributes that steer their coding. This is plain data: references are
names, and nothing is checked yet.
-/

namespace BitRecord

/-- The order of the octets of an integer. -/
inductive ByteOrder where
  | big
  | little
  deriving DecidableEq

/-- The type of a scalar. Sizes of strings count octets (for characters too) or bits. -/
inductive ScalarSpec where
  /-- Without a byte order the octets follow the bit order. -/
  | integer (bits : Nat) (signed : Bool) (bytes : Option ByteOrder)
  | boolean (bits : Nat)
  | enumerated (bits : Nat) (items : List (String × Int))
  | octetString (size : Option Nat)
  | bitString (size : Option Nat)
  | charString (size : Option Nat)
  deriving DecidableEq

/-- What a length field counts. -/
inductive LengthUnit where
  | bits (n : Nat)
  | elements
  deriving DecidableEq

/-- How the first bit of each octet of a run tells whether the run goes on: `yes` sets it in the
last octet only, `reverse` in all but the last. -/
inductive ExtMode where
  | no
  | yes
  | reverse
  deriving DecidableEq

/-- A literal value of the schema language. -/
inductive Literal where
  | int (x : Int)
  | bool (b : Bool)
  | ident (name : String)
  | str (text : String)
  | octets (data : List UInt8)
  | bits (data : List Bool)
  deriving DecidableEq

/-- `path == literal`, or `path == omit` when nothing is expected. The path starts at a field of the
enclosing record and goes on through nested fields or union alternatives. -/
structure Condition where
  path : List String
  expected : Option Literal

/-- Chooses `target` when one of the checks holds. A rule without checks is the *otherwise* rule. -/
structure Rule (τ κ : Type) where
  target : τ
  checks : List κ

def Rule.isOtherwise {τ κ : Type} (rule : Rule τ κ) : Bool := rule.checks.isEmpty

/-- Fields from `first` to `last` share one run of extension bits. -/
structure ExtGroup (ι : Type) where
  mode : ExtMode
  first : ι
  last : ι

structure RawField where
  /-- A bit length that replaces the one of the type. -/
  fieldLength : Option Nat := none
  lengthTo : List String := []
  unit : LengthUnit := .bits 8
  lengthOffset : Int := 0
  lengthIndex : Option String := none
  pointerTo : Option String := none
  pointerUnit : Option Nat := none
  pointerOffset : Int := 0
  pointerBase : Option String := none
  crosstag : List (Rule String Condition) := []
  /-- One of the conditions has to hold; no condition means none is asked for. -/
  presence : List Condition := []

structure RawType where
  /-- Without an order the one of the enclosing type is used. -/
  bitOrder : Option BitOrder := none
  prepadding : Nat := 0
  padding : Nat := 0
  extensionBit : ExtMode := .no
  extGroups : List (ExtGroup String) := []
  tags : List (Rule String Condition) := []
  presence : List Condition := []

structure JsonField where
  /-- The member name, where it is not the name of the field. -/
  name : Option String := none
  /-- JSON text that stands in for a missing member. -/
  defaultText : Option String := none
  omitAsNull : Bool := false
  metainfoUnbound : Bool := false
  /-- A rule without an alternative says that the field is left out. -/
  chosen : List (Rule (Option String) Condition) := []

inductive StructKind where
  | record
  | set
  deriving DecidableEq

mutual

inductive Spec where
  | scalar (s : ScalarSpec)
  /-- With `asValue`, JSON holds the alternative's value without a wrapping object. -/
  | union (asValue : Bool) (alternatives : List Alternative)
  /-- With `asMap`, JSON holds the elements as members of one object. -/
  | recordOf (asMap : Bool) (element : Spec)
  | struct (d : StructDef)
  | named (name : String)

structure Alternative where
  name : String
  spec : Spec

structure StructDef where
  name : String
  kind : StructKind := .record
  fields : List Field
  raw : RawType := {}
  /-- JSON holds the value of the single field without a wrapping object. -/
  asValue : Bool := false

structure Field where
  name : String
  spec : Spec
  optional : Bool := false
  raw : RawField := {}
  json : JsonField := {}

end

structure TypeDef where
  name : String
  spec : Spec

/-- An unsigned integer in bit order. -/
abbrev Spec.unsigned (bits : Nat) : Spec := .scalar (.integer bits false none)

/-- A record or set under its own name. -/
def TypeDef.ofStruct (d : StructDef) : TypeDef := { name := d.name, spec := .struct d }

/-- Named types in declaration order. -/
structure Schema where
  types : List TypeDef

def Field.memberName (f : Field) : String := f.json.name.getD f.name

mutual

/-- The number of specs in a spec, itself included. -/
def Spec.nodes : Spec → Nat
  | .scalar _ => 1
  | .union _ alternatives => 1 + alternativeNodes alternatives
  | .recordOf _ element => 1 + element.nodes
  | .struct { fields, .. } => 1 + fieldNodes fields
  | .named _ => 1

def alternativeNodes : List Alternative → Nat
  | [] => 0
  | { spec, .. } :: rest => spec.nodes + alternativeNodes rest

def fieldNodes : List Field → Nat
  | [] => 0
  | { spec, .. } :: rest => spec.nodes + fieldNodes rest

end

mutual

/-- The number of characters in the defaults of a spec. -/
def Spec.defaultLength : Spec → Nat
  | .scalar _ => 0
  | .union _ alternatives => alternativeDefaults alternatives
  | .recordOf _ element => element.defaultLength
  | .struct { fields, .. } => fieldDefaults fields
  | .named _ => 0

def alternativeDefaults : List Alternative → Nat
  | [] => 0
  | { spec, .. } :: rest => spec.defaultLength + alternativeDefaults rest

def fieldDefaults : List Field → Nat
  | [] => 0
  | { spec, json, .. } :: rest =>
    (json.defaultText.getD "").length + spec.defaultLength + fieldDefaults rest

end

namespace Schema

def nodes (s : Schema) : Nat := total (s.types.map fun t => t.spec.nodes)

def defaultLength (s : Schema) : Nat := total (s.types.map fun t => t.spec.defaultLength)

end Schema

end BitRecord
