import BitRecord.Schema.Fault
import BitRecord.Schema.Lookup
import BitRecord.Text.Hex
import BitRecord.Value.Basic

/-!
# BitRecord.Value.Display

Values as log text, such as a list of `name := value` between braces.
-/

namespace BitRecord

def Scalar.text : Scalar → String
  | .int x => toString x
  | .bool b => if b then "true" else "false"
  | .item name => name
  | .octets data => "'" ++ String.ofList (Hex.encode data) ++ "'O"
  | .bits data => "'" ++ String.ofList (Binary.encode data) ++ "'B"
  | .chars text => Quoted.encode text

/-- Parts between braces. -/
def braced (parts : List String) : String :=
  if parts.isEmpty then "\x7b \x7d" else "\x7b " ++ joinWith ", " parts ++ " \x7d"

namespace Display

/-- The spec of an alternative of a union. -/
def alternative? (spec : Option Spec) (name : String) : Option Spec :=
  match spec with
  | some (.union _ alternatives) => (alternatives.find? fun a => a.name = name).map Alternative.spec
  | _ => none

def element? (spec : Option Spec) : Option Spec :=
  match spec with
  | some (.recordOf _ element) => some element
  | _ => none

def fields (spec : Option Spec) : List Field :=
  match spec with
  | some (.struct d) => d.fields
  | _ => []

mutual

/-- The text of a value whose spec, if it is known, is followed by `concrete`. -/
def value (concrete : Spec → Spec) (spec : Option Spec) : Value → String
  | .scalar s => s.text
  | .union name v =>
    "\x7b " ++ name ++ " := " ++ value concrete (alternative? (spec.map concrete) name) v ++ " \x7d"
  | .list items => braced (elements concrete (element? (spec.map concrete)) items)
  | .record ss => braced (slots concrete (fields (spec.map concrete)) ss)

def elements (concrete : Spec → Spec) (spec : Option Spec) : List Value → List String
  | [] => []
  | v :: rest => value concrete spec v :: elements concrete spec rest

/-- The texts of slots, with names as long as there are fields. -/
def slots (concrete : Spec → Spec) : List Field → List Slot → List String
  | _, [] => []
  | [], s :: rest => slot concrete none s :: slots concrete [] rest
  | f :: fs, s :: rest =>
    (f.name ++ " := " ++ slot concrete (some f.spec) s) :: slots concrete fs rest

def slot (concrete : Spec → Spec) (spec : Option Spec) : Slot → String
  | .unbound => "<unbound>"
  | .omitted => "omit"
  | .present v => value concrete spec v

end

end Display

namespace Value

def text (v : Value) : String := Display.value id none v

/-- The text of a value of a type, with field names. -/
def textOf (v : Value) (s : Schema) (type : String) : String :=
  Display.value s.concrete (some (.named type)) v

end Value

end BitRecord
